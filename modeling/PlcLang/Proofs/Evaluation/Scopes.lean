import PlcLang.Evaluation.Visit
import PlcLang.Proofs.Evaluation.Still
import PlcLang.Proofs.Scopes

/-!
# Scopes during a run

However the evaluation of a node ends, the active scope is the one that it was. Calls run in scopes of
their own, and so does every block.

* `Run.Tidies`: an evaluation of nodes that leaves the scopes so.
* `Run.step_tidies`: one step.
* `Run.visit_tidy`: the evaluation of a node in any depth.
-/

namespace PlcLang

namespace Run

open Walk

/-- The text begins with the other one. -/
def Continues (text text' : String) : Prop := ∃ more, text' = text ++ more

instance : Std.Refl Continues := ⟨fun _ => ⟨"", String.append_empty.symm⟩⟩

instance : IsTrans String Continues := by
  refine ⟨?_⟩
  rintro text _ _ ⟨more, rfl⟩ ⟨more', rfl⟩
  exact ⟨more ++ more', String.append_assoc⟩

/-- The evaluation of every node leaves the scopes as they were, apart from new bindings. -/
def Tidies (V : Node → Run Value) : Prop :=
  ∀ n, Tidy Continues (n.Everywhere Node.HasOperands) n.exposed (V n)

section

variable {V : Node → Run Value} {p : Prop} {ns : List Node} {name : Name} {place : Place}
  {node : Node} {nodes : List Node} {v : Value}

/-! ## Parts -/

/-- A part that binds nothing by itself. -/
theorem Tidies.operand (h : Tidies V)
    (hnode : p → node.Everywhere Node.HasOperands ∧ node.isOperand = true) :
    Tidy Continues p ns (V node) :=
  (h node).mono fun hp => ⟨(hnode hp).1,
    Node.exposed_of_isOperand (hnode hp).2 ▸ List.nil_sublist _⟩

/-- A block binds what its statements bind, whichever they are. -/
theorem Tidies.block (h : Tidies V) : Tidy Continues False [] (block V nodes) := by
  induction nodes with
  | nil => exact .of_still .pure
  | cons n ns ih =>
    refine Tidy.bind_nil ((h n).mono nofun) fun v => ?_
    cases v with
    | returned r => exact .of_still .pure
    | _ => exact ih

theorem Tidies.values (h : Tidies V) (hnodes : p → ∀ n ∈ nodes, n.Everywhere Node.HasOperands) :
    Tidy Continues p (Node.allExposed nodes) (values V nodes) := by
  induction nodes with
  | nil => exact .of_still .pure
  | cons n ns ih =>
    have hn (hp : p) := List.forall_mem_cons.mp (hnodes hp)
    refine ((h n).mono fun hp => ⟨(hn hp).1, .refl _⟩).bind fun _ => ?_
    exact (ih fun hp => (hn hp).2).bind_still fun _ => .pure

/-- Operands bind nothing. -/
theorem Tidies.operands (h : Tidies V)
    (hnodes : p → ∀ n ∈ nodes, n.Everywhere Node.HasOperands ∧ n.isOperand = true) :
    Tidy Continues p ns (Run.values V nodes) := by
  refine (h.values (p := p) fun hp n hn => (hnodes hp n hn).1).mono fun hp => ⟨hp, ?_⟩
  rw [Node.allExposed_of_isOperand fun n hn => (hnodes hp n hn).2]
  exact List.nil_sublist _

theorem Tidies.valueOf (h : Tidies V)
    (hnode : p → node.Everywhere Node.HasOperands ∧ node.isOperand = true) :
    Tidy Continues p ns (valueOf V node) := .ite (h.operand hnode) (.of_still .pure)

/-! ## Changes of the state -/

theorem printLine_tidy {text : String} : Tidy Continues p ns (printLine text) :=
  fun _ _ => ⟨[], [], ⟨rfl, ⟨text ++ "\n", String.append_assoc⟩, Nat.le_refl _,
    fun _ _ _ => .refl _, .refl _⟩, fun _ => .nil ns⟩

theorem newList_tidy {vs : List Value} : Tidy Continues p ns (newList vs) :=
  fun s _ => ⟨[], [], ⟨rfl, Std.Refl.refl s.register, Nat.le_refl _, fun _ _ _ => .refl _, .refl _⟩,
    fun _ => .nil ns⟩

theorem setItem_tidy {id : ListId} {index : Nat} :
    Tidy Continues p ns (modifyStore (·.setItem id index v)) :=
  fun s _ => ⟨[], [], ⟨rfl, Std.Refl.refl s.register, Nat.le_refl _, fun _ _ _ => .refl _, .refl _⟩,
    fun _ => .nil ns⟩

/-- A variable with another value is bound as before. -/
theorem gains_setVariable (s : Store Body) (ref : VariableRef) (v : Value) (id : ScopeId) :
    Scope.Gains [] [] (s.scope id) ((s.setVariable ref v).scope id) := by
  refine Store.rel_scope_modifyScope .refl ⟨?_, (List.append_nil _).symm⟩ id
  rw [List.append_nil, List.map_map]
  refine List.map_congr_left fun u _ => ?_
  dsimp only [Function.comp]
  split <;> rfl

theorem setVariable_tidy {ref : VariableRef} :
    Tidy Continues p ns (modifyStore (·.setVariable ref v)) :=
  fun s _ => ⟨[], [], ⟨rfl, Std.Refl.refl s.register, Nat.le_of_eq Store.size_modifyScope.symm,
    fun id _ _ => gains_setVariable _ ref v id, gains_setVariable _ ref v _⟩, fun _ => .nil ns⟩

/-! ## Calls -/

theorem bindParameters_tidy {names : List Name} {arguments : List Value} :
    Tidy Continues False [] (bindParameters place names arguments) := by
  induction names generalizing arguments with
  | nil => exact .of_still .pure
  | cons name names ih =>
    cases arguments with
    | nil => exact .of_still .pure
    | cons v vs =>
      -- which node binds the parameter does not matter inside the call
      have hdefine : Tidy Continues False [.declaration name none .missing none place]
          (defineVariable { name, value := v, origin := place } : Run VariableRef) :=
        .defineVariable ⟨rfl, rfl, rfl⟩
      exact Tidy.bind_nil (hdefine.mono nofun) fun _ => ih

theorem Tidies.invoke (h : Tidies V) {f : Function Body} {arguments : List Value} :
    Tidy Continues p ns (invoke V f arguments) := by
  refine Tidy.bind_nil (.of_still .lift) fun body => ?_
  cases body with
  | print =>
    exact Tidy.bind_nil (.of_still textOf_still) fun _ => printLine_tidy.bind_still fun _ => .pure
  | code env parameters statements place =>
    refine .inChildOf (Tidy.bind_nil bindParameters_tidy fun _ => ?_)
    refine h.block.bind_still fun v => ?_
    cases v <;> exact .pure

theorem Tidies.callWith (h : Tidies V)
    (hnodes : p → ∀ n ∈ nodes, n.Everywhere Node.HasOperands ∧ n.isOperand = true) :
    Tidy Continues p ns (callWith V name nodes) :=
  Tidy.bind_nil (.of_still .lookupFunction) fun _ => Tidy.bind_nil (h.operands hnodes) fun _ => h.invoke

/-! ## Statements -/

/-- At most one case is visited. -/
theorem Tidies.choose (h : Tidies V) {default : Option Node}
    (hnodes : p → ∀ n ∈ nodes, n.Everywhere Node.HasOperands ∧ n.exposed.Sublist ns)
    (hdefault : p → ∀ n ∈ default, n.Everywhere Node.HasOperands ∧ n.exposed.Sublist ns) :
    Tidy Continues p ns (choose V v default nodes) := by
  induction nodes generalizing default with
  | nil =>
    cases default with
    | some n => exact (h n).mono fun hp => hdefault hp n rfl
    | none => exact .of_still .pure
  | cons n ns ih =>
    have hn (hp : p) := List.forall_mem_cons.mp (hnodes hp)
    refine Tidy.part_bind fun value hvalue => .ite ?_ ?_
    · refine Tidy.bind_nil (h.operand fun hp => ?_) fun _ => ?_
      · exact (hn hp).1.1.operand (Node.mem_operands_of_caseValue? hvalue)
      · refine Tidy.bind_nil (.of_still equal_still) fun _ => .ite ((h n).mono fun hp => (hn hp).1) ?_
        exact ih (fun hp => (hn hp).2) hdefault
    · refine ih (fun hp => (hn hp).2) fun hp m hm => ?_
      exact Option.some.inj hm ▸ (hn hp).1

theorem Tidies.repeatWhile (h : Tidies V)
    (hnode : p → node.Everywhere Node.HasOperands ∧ node.isOperand = true) (rounds : Nat) :
    Tidy Continues p ns (repeatWhile V node nodes rounds) := by
  induction rounds with
  | zero => exact .of_still .throw
  | succ rounds ih =>
    refine Tidy.bind_nil (h.operand hnode) fun _ => Tidy.bind_nil (.of_still requireBoolean_still)
      fun _ => .ite (Tidy.bind_nil (.inChild h.block) fun v => ?_) (.of_still .pure)
    cases v with
    | returned r => exact .of_still .pure
    | _ => exact ih

theorem Tidies.branch (h : Tidies V) {ts es : List Node}
    (hnode : p → node.Everywhere Node.HasOperands ∧ node.isOperand = true) :
    Tidy Continues p ns (branch V node ts es) :=
  Tidy.bind_nil (h.operand hnode) fun _ => Tidy.bind_nil (.of_still requireBoolean_still) fun _ =>
    .ite (.inChild h.block) (.inChild h.block)

theorem Tidies.assign (h : Tidies V) {offset value : Node}
    (ho : p → offset.Everywhere Node.HasOperands ∧ offset.isOperand = true)
    (hvalue : p → value.Everywhere Node.HasOperands ∧ value.isOperand = true) :
    Tidy Continues p ns (assign V name offset value) := by
  refine Tidy.bind_nil (.of_still .lookupVariable) fun _ => Tidy.bind_nil (.of_still .require) fun _ =>
    .ite ?_ (Tidy.bind_nil (h.operand hvalue) fun _ => setVariable_tidy)
  refine Tidy.bind_nil (.of_still requireList_still) fun _ => Tidy.bind_nil (h.operand ho) fun _ => ?_
  refine Tidy.bind_nil (.of_still requireInteger_still) fun _ => ?_
  refine Tidy.bind_nil (h.operand hvalue) fun _ => ?_
  exact Tidy.bind_nil (.of_still requireIndex_still) fun _ => setItem_tidy

/-- The node binds one variable. -/
theorem Tidies.declare (h : Tidies V) {mutable : Option Bool} {n : Node}
    (hnode : p → node.Everywhere Node.HasOperands ∧ node.isOperand = true)
    (hbinds : ∀ v, n.BindsVariable { name, mutable, value := v, origin := place }) :
    Tidy Continues p [n] (declare V name mutable node place) :=
  Tidy.bind_nil (h.valueOf hnode) fun _ =>
    (Tidy.defineVariable (hbinds .nil)).bind_still fun _ => .pure

/-! ## Expressions -/

theorem Tidies.access (h : Tidies V)
    (hnode : p → node.Everywhere Node.HasOperands ∧ node.isOperand = true) :
    Tidy Continues p ns (access V name node) := by
  refine Tidy.bind_nil (.of_still .lookupVariable) fun _ => .ite ?_ (.of_still .pure)
  refine Tidy.bind_nil (.of_still requireList_still) fun _ => Tidy.bind_nil (h.operand hnode) fun _ => ?_
  exact .of_still (requireInteger_still.bind fun _ => requireIndex_still.bind fun _ =>
    Still.get.bind fun _ => .part)

theorem Tidies.operation (h : Tidies V) {op : Operator} {left right : Node}
    (hl : p → left.Everywhere Node.HasOperands ∧ left.isOperand = true)
    (hr : p → right.Everywhere Node.HasOperands ∧ right.isOperand = true) :
    Tidy Continues p ns (operation V op left right) := by
  have hboolean : Tidy Continues p ns
      (do return Value.boolean (← requireBoolean (← V right))) :=
    (h.operand hr).bind_still fun _ => requireBoolean_still.bind fun _ => .pure
  refine Tidy.bind_nil (h.operand hl) fun l => ?_
  split
  · exact Tidy.bind_nil (.of_still requireBoolean_still) fun _ => .ite hboolean (.of_still .pure)
  · exact Tidy.bind_nil (.of_still requireBoolean_still) fun _ => .ite (.of_still .pure) hboolean
  · exact (h.operand hr).bind_still fun _ => operate_still

/-! ## Steps -/

/-- **One step leaves the scopes as they were, apart from new bindings.** -/
theorem step_tidies (h : Tidies V) (rounds : Nat) : Tidies (step V rounds) := by
  intro n
  have hoperand (e : Node) (he : e ∈ n.operands) (hn : n.Everywhere Node.HasOperands) :=
    hn.operand he
  cases n with
  | missing | bare => exact .of_still .raise
  | literal => exact .of_still .pure
  | group e => exact h.operand (hoperand e List.mem_cons_self)
  | binary op l r =>
    exact h.operation (hoperand l List.mem_cons_self)
      (hoperand r (List.mem_cons_of_mem _ List.mem_cons_self))
  | access name offset => exact h.access (hoperand offset List.mem_cons_self)
  | call name arguments => exact h.callWith fun hn a ha => hoperand a ha hn
  | listLiteral elements =>
    exact Tidy.bind_nil (h.operands fun hn a ha => hoperand a ha hn) fun _ => newList_tidy
  | expressionStatement e =>
    exact (h.operand (hoperand e List.mem_cons_self)).bind_still fun _ => .pure
  | declaration name typeName value =>
    refine (h.declare (hoperand value List.mem_cons_self) fun _ => ?_).bind_still fun _ => .pure
    exact ⟨rfl, rfl, rfl⟩
  | assignment receiver value =>
    have hreceiver := hoperand receiver List.mem_cons_self
    have hvalue := hoperand value (List.mem_cons_of_mem _ List.mem_cons_self)
    cases receiver with
    | access name offset =>
      refine (h.assign (fun hn => ?_) hvalue).bind_still fun _ => .pure
      exact (hreceiver hn).1.operand List.mem_cons_self
    | _ => exact .of_still .raise
  | conditional c ts es => exact h.branch (hoperand c List.mem_cons_self)
  | case value ss => exact .inChild h.block
  | switch c cases =>
    refine Tidy.bind_nil (h.operand (hoperand c List.mem_cons_self)) fun _ => ?_
    refine h.choose (fun hn m hm => ⟨?_, Node.exposed_sublist_allExposed hm⟩) nofun
    exact (Node.everywhere_iff.mp hn).2 m (List.mem_cons_of_mem _ hm)
  | whileLoop c ss => exact h.repeatWhile (hoperand c List.mem_cons_self) rounds
  | returning e => exact (h.operand (hoperand e List.mem_cons_self)).bind_still fun _ => .pure
  | global name typeName mutable value =>
    refine (h.declare (hoperand value List.mem_cons_self) fun _ => ?_).bind_still fun _ => .pure
    exact ⟨rfl, rfl, rfl⟩
  | function name parameters =>
    refine Tidy.bind_still (Tidy.bind_nil (.of_still .get) fun _ => ?_) fun _ => .pure
    refine (Tidy.defineFunction ?_).bind_still fun _ => .pure
    exact ⟨rfl, List.length_map _, rfl⟩
  | source gs fs =>
    have hparts (hn : (Node.source gs fs).Everywhere Node.HasOperands) :=
      List.forall_mem_append.mp (Node.everywhere_iff.mp hn).2
    refine (h.values fun hn => (hparts hn).1).bind fun _ => ?_
    exact (h.values fun hn => (hparts hn).2).bind_ends fun _ =>
      Tidy.bind_nil (.of_still .lookupFunction) fun _ => h.invoke

end

/-- **However the evaluation of a node ends**, the scopes are as they were, apart from new bindings. -/
theorem visit_tidy (depth : Nat) : Tidies (visit depth) := by
  induction depth with
  | zero => exact fun _ => .of_still .throw
  | succ depth ih => exact fun n => (step_tidies ih depth n).attached n

end Run

end PlcLang
