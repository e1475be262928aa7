import PlcLang.Proofs.Evaluation.Faults
import PlcLang.Proofs.Typing.Step
import PlcLang.Proofs.Visits

/-!
# Visits in an analysis

The analysis of a node visits parts of the node. It hands on their errors; what it finds out itself is
bare.

* `Analysis.literalType_bare`, …: checks.
* `Analysis.step_relays`: an analysis hands on the errors of the parts.
* `Analysis.walker`: the analysis as a walker.
-/

namespace PlcLang.Analysis

open Walk

/-! ## Checks -/

theorem resolve_bare {name : Name} : Bare (resolve name) := by
  unfold resolve
  split
  · exact .pure
  · exact .raise

theorem typeOf_bare {node : Node} : Bare (typeOf node) := .part

theorem expect_bare {target : Ty} {node : Node} : Bare (expect target node) :=
  typeOf_bare.bind fun _ => .lift

theorem expectPresent_bare {target : Ty} {node : Node} : Bare (expectPresent target node) :=
  .ite expect_bare .pure

theorem declaredType_bare {typeName : Name} {value : Node} {untyped : Fault} :
    Bare (declaredType typeName value untyped) := by
  cases typeName with
  | some => exact resolve_bare
  | none => exact .ite typeOf_bare .raise

theorem returnedType_bare {typeName : Name} : Bare (returnedType typeName) := by
  cases typeName with
  | some => exact resolve_bare
  | none => exact .pure

theorem requireDefault_bare {cases : List Node} : Bare (requireDefault cases) := by
  unfold requireDefault
  split
  · exact .raise
  · exact Bare.part.bind fun _ => .require

theorem literalType_bare {v : Value} : Bare (literalType v) := by
  unfold literalType
  split
  · exact Bare.require.bind fun _ => .pure
  · exact Bare.require.bind fun _ => .pure
  · exact Bare.require.bind fun _ => .pure
  · exact .part
  · exact Bare.bind (.reading fun h => Store.of_quoted h (fun _ => .unfinished) fun _ => .overlong)
      fun _ => .raise

theorem accessed_bare {node : Node} : Bare (accessed node) :=
  Bare.part.bind fun _ => Bare.get.bind fun _ => .part

theorem defineParameters_bare {place : Place} {names : List Name} {types : List Ty} :
    Bare (defineParameters place names types) := by
  fun_induction defineParameters place names types with
  | case1 _ _ _ _ ih => exact Bare.inStore.bind fun _ => ih
  | case2 => exact .pure

theorem mapM_resolve_bare {names : List Name} : Bare (names.mapM resolve) := by
  induction names with
  | nil => exact .pure
  | cons name names ih =>
    rw [List.mapM_cons]
    exact resolve_bare.bind fun _ => ih.bind fun _ => .pure

theorem forM_expect_bare {type : Ty} {nodes : List Node} : Bare (nodes.forM (expect type)) := by
  induction nodes with
  | nil => exact .pure
  | cons n ns ih => exact expect_bare.bind fun _ => ih

/-! ## Parts of a step -/

variable {P : Node → Prop} {F : Stop → Prop} {n : Node} {nodes : List Node}

theorem visitAll_relays (h : ∀ n ∈ nodes, P n) : Relays P F fun V => visitAll V nodes := by
  induction nodes with
  | nil => exact .pure
  | cons n ns ih =>
    obtain ⟨hn, hns⟩ := List.forall_mem_cons.mp h
    exact Relays.bind (.visit hn) fun _ => (ih hns).bind fun _ => .pure

theorem visitArguments_relays {types : List Ty} (h : ∀ n ∈ nodes, P n) :
    Relays P Stop.IsBare fun V => visitArguments V nodes types := by
  induction nodes generalizing types with
  | nil => exact .pure
  | cons n ns ih =>
    obtain ⟨hn, hns⟩ := List.forall_mem_cons.mp h
    cases types with
    | nil => exact .pure
    | cons type types =>
      exact Relays.bind (.visit hn) fun _ => .bare_bind expect_bare fun _ => (ih hns).bind fun _ => .pure

theorem visitCaseValues_relays {condition : Option Ty}
    (h : ∀ n ∈ nodes, ∀ value, n.caseValue? = some value → P value) :
    Relays P Stop.IsBare fun V => visitCaseValues V condition nodes := by
  induction nodes with
  | nil => exact .pure
  | cons n ns ih =>
    obtain ⟨hn, hns⟩ := List.forall_mem_cons.mp h
    have hvalue : Relays P Stop.IsBare fun V => visitCaseValue V n := by
      unfold visitCaseValue
      cases hc : n.caseValue? with
      | none => exact .of_bare (.throw .malformed)
      | some value =>
        have hvisit : Relays P Stop.IsBare fun V : Node → Analysis Node => V value := .visit (hn value hc)
        exact (Relays.bare_bind .require fun _ => hvisit :
          Relays P Stop.IsBare fun V : Node → Analysis Node => do
            require value.isPresent .earlyDefault
            V value)
    refine .ite .pure (hvalue.bind fun _ => .bare_bind .part fun _ => .bare_bind expect_bare fun _ => ?_)
    exact (ih hns).bind fun _ => .pure

theorem whenPresent_relays (h : P n) : Relays P F fun V => whenPresent n (V n) := .ite (.visit h) .pure

theorem inFunction_relays {α : Type} {returns : Ty} {w : Tour Unit (Option Ty) Node α}
    (h : Relays P F w) : Relays P F fun V => inFunction returns (w V) :=
  h.within (g := fun s => { s with register := some returns })
    (f := fun s t => { t with register := s.register })
    (fun hok => by simp only [inFunction, hok]) fun herror => by simp only [inFunction, herror]

/-- **A step hands on the errors of the parts.** -/
theorem step_relays (h : ∀ c ∈ n.children, P c)
    (hvalues : ∀ c ∈ n.children, ∀ value, c.caseValue? = some value → P value) :
    Relays P Stop.IsBare fun V => step V n := by
  have hhead {c : Node} {cs : List Node} (hn : n.children = c :: cs) : P c ∧ ∀ c ∈ cs, P c :=
    List.forall_mem_cons.mp (hn ▸ h)
  cases n with
  | missing | bare => exact .of_bare .raise
  | source gs fs =>
    obtain ⟨hgs, hfs⟩ := List.forall_mem_append.mp h
    exact (visitAll_relays hgs).bind fun _ => (visitAll_relays hfs).bind fun _ => .bare_bind .inStore fun _ =>
      .bare_bind .require fun _ => .pure
  | global =>
    exact (whenPresent_relays (hhead rfl).1).bind fun _ => .bare_bind declaredType_bare fun _ =>
      .bare_bind .inStore fun _ => .bare_bind expectPresent_bare fun _ => .pure
  | function =>
    refine .bare_bind .require fun _ => .bare_bind mapM_resolve_bare fun _ =>
      .bare_bind returnedType_bare fun _ => .bare_bind .inStore fun _ => ?_
    exact (inFunction_relays (Relays.inChild (.bare_bind defineParameters_bare fun _ =>
      visitAll_relays h))).bind fun _ => .pure
  | expressionStatement =>
    exact .bare_bind .require fun _ => Relays.bind (.visit (hhead rfl).1) fun _ => .pure
  | declaration =>
    exact .bare_bind .require fun _ => (whenPresent_relays (hhead rfl).1).bind fun _ =>
      .bare_bind declaredType_bare fun _ => .bare_bind .inStore fun _ =>
        .bare_bind expectPresent_bare fun _ => .pure
  | assignment =>
    obtain ⟨hreceiver, hrest⟩ := hhead rfl
    refine .bare_bind .require fun _ => Relays.bind (.visit hreceiver) fun _ => .bare_bind accessed_bare fun _ =>
      .bare_bind .require fun _ => Relays.bind (.visit (List.forall_mem_singleton.mp hrest)) fun _ => ?_
    exact .bare_bind typeOf_bare fun _ => .bare_bind expect_bare fun _ => .pure
  | conditional =>
    obtain ⟨hcondition, hrest⟩ := hhead rfl
    obtain ⟨hthen, helse⟩ := List.forall_mem_append.mp hrest
    refine Relays.bind (.visit hcondition) fun _ => .bare_bind expect_bare fun _ => .bare_bind .require fun _ => ?_
    exact (visitAll_relays hthen).inChild.bind fun _ => (visitAll_relays helse).inChild.bind fun _ => .pure
  | switch =>
    obtain ⟨hcondition, hcases⟩ := hhead rfl
    refine Relays.bind (.visit hcondition) fun _ => .bare_bind requireDefault_bare fun _ => ?_
    refine (visitCaseValues_relays fun c hc => hvalues c (List.mem_cons_of_mem _ hc)).bind fun _ => ?_
    exact (visitAll_relays hcases).bind fun _ => .pure
  | case => exact (visitAll_relays (hhead rfl).2).inChild.bind fun _ => .pure
  | whileLoop =>
    obtain ⟨hcondition, hstatements⟩ := hhead rfl
    refine Relays.bind (.visit hcondition) fun _ => .bare_bind expect_bare fun _ => ?_
    exact (visitAll_relays hstatements).inChild.bind fun _ => .pure
  | returning =>
    refine .bare_bind .get fun s => ?_
    cases s.register with
    | none => exact .of_bare .raise
    | some returns =>
      exact Relays.bind (.visit (hhead rfl).1) fun _ => .bare_bind expect_bare fun _ => .pure
  | literal => exact .bare_bind literalType_bare fun _ => .pure
  | group =>
    exact .bare_bind .require fun _ => Relays.bind (.visit (hhead rfl).1) fun _ =>
      .bare_bind typeOf_bare fun _ => .pure
  | binary =>
    obtain ⟨hleft, hrest⟩ := hhead rfl
    refine Relays.bind (.visit hleft) fun _ => Relays.bind (.visit (List.forall_mem_singleton.mp hrest)) fun _ => ?_
    exact .bare_bind typeOf_bare fun _ => .bare_bind typeOf_bare fun _ => .bare_bind .lift fun _ => .pure
  | access =>
    exact .bare_bind .inStore fun _ => (whenPresent_relays (hhead rfl).1).bind fun _ =>
      .bare_bind expectPresent_bare fun _ => .pure
  | call => exact .bare_bind .inStore fun _ => (visitArguments_relays h).bind fun _ => .pure
  | listLiteral =>
    exact .bare_bind .require fun _ => (visitAll_relays h).bind fun _ => .bare_bind .part fun _ =>
      .bare_bind forM_expect_bare fun _ => .pure

/-! ## Analyses as walkers -/

/-- The analysis of nodes: every visit is that of a tree inside the one that was visited. -/
noncomputable def walker : Walker Unit (Option Ty) Node where
  visit _ := visit
  tour _ n := fun V => step V n
  visit_eq _ n := visit_eq n
  reach _ n m := n.Contains m ∧ m.height < n.height
  relays _ n := by
    refine step_relays (fun c hc => ⟨.child .self hc, Node.height_lt_of_mem_children hc⟩)
      fun c hc value hvalue => ?_
    have hmem := Node.mem_children_of_caseValue? hvalue
    have hcontains : n.Contains c := .child .self hc
    exact ⟨.child hcontains hmem, Node.height_lt_of_contains_child hcontains hmem⟩
  rank _ := Node.height
  rank_lt h := h.2
  missing _ := by
    intro s e t he
    rw [visit_eq] at he
    cases he
    exact .raised _

end PlcLang.Analysis
