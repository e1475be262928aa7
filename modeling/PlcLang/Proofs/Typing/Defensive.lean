import PlcLang.Proofs.Defensive
import PlcLang.Proofs.Typing.Scopes

/-!
# Defensive faults of the analysis

The analysis of a program that has a text never ends with a defensive fault. Statements are only
visited inside functions, the value of a global has a type beside it, and every node has the parts
that its kind should have.

* `Analysis.Avoids`: walks that end without such a fault and leave the function around them alone.
* `Analysis.visit_avoids`: all nodes inside a program.
* `Node.IsProgram.analyze_avoids`: the analysis of a program.
-/

namespace PlcLang

namespace Analysis

open Walk

/-- Inside a function that returns `r`, or outside of functions, the walk ends with no defensive fault
and is still there. -/
abbrev Avoids {α : Type} (r : Option Ty) (x : Analysis α) : Prop :=
  Spares (fun s => s.register = r) Fault.DefendsAnalysis x fun _ => True

/-- The computation is at no defensive fault. -/
def Clean {α : Type} (x : Except Fault α) : Prop := ∀ f, x = .error f → ¬ f.DefendsAnalysis

/-! ## Types of operations -/

namespace Clean

variable {α γ : Type}

theorem ok {a : α} : Clean (.ok a) := fun _ h => by cases h

theorem error {f : Fault} (h : ¬ f.DefendsAnalysis) : Clean (.error f : Except Fault α) :=
  fun _ hf => by
    cases hf
    exact h

theorem bind {x : Except Fault γ} {g : γ → Except Fault α} (h : Clean x) (hg : ∀ c, Clean (g c)) :
    Clean (x >>= g) := by
  cases x with
  | ok c => exact hg c
  | error f => exact .error (h f rfl)

theorem ite {c : Prop} [Decidable c] {x y : Except Fault α} (h : Clean x) (k : Clean y) :
    Clean (if c then x else y) := by
  split
  · exact h
  · exact k

end Clean

theorem check_clean {target source : Ty} : Clean (target.check source) := .ite .ok (.error id)

theorem arithmeticType_clean {op : Operator} {left right : Ty} :
    Clean (Operator.resultType.arithmeticType op left right) := .ite .ok (.error id)

/-- An operator of a level is known. -/
theorem resultType_clean {op : Operator} {level : Level} {left right : Ty}
    (hop : op.level? = some level) : Clean (op.resultType left right) := by
  cases op with
  | and | or => exact check_clean.bind fun _ => check_clean.bind fun _ => .ok
  | equal | unequal | less | greater =>
    exact .ite (.error id) (check_clean.bind fun _ => .ok)
  | plus => exact .ite .ok arithmeticType_clean
  | minus | times | divide => exact arithmeticType_clean
  | power => exact check_clean.bind fun _ => .ite .ok (.error id)
  | other => cases hop

/-! ## Walks -/

namespace Avoids

variable {α : Type} {r : Option Ty} {x : Analysis α}

theorem lookupVariable {name : Name} :
    Avoids r (lookupVariable name : Analysis (VariableRef × Variable)) :=
  .of_same fun _ _ => (Agrees.lookupVariable_ends id).mono fun _ _ ht => ⟨ht.1, trivial⟩

theorem lookupFunction {name : Name} {arity : Nat} :
    Avoids r (lookupFunction name arity : Analysis (FunctionRef × Function Unit)) :=
  .of_same fun _ _ => (Agrees.lookupFunction_ends id).mono fun _ _ ht => ⟨ht.1, trivial⟩

theorem defineVariable {v : Variable} : Avoids r (defineVariable v : Analysis VariableRef) :=
  fun _ hs => (Agrees.defineVariable_ends id).mono fun _ _ ht => ⟨trivial, ht ▸ hs⟩

theorem defineFunction {f : Function Unit} : Avoids r (defineFunction f : Analysis FunctionRef) :=
  fun _ hs => (Agrees.defineFunction_ends id).mono fun _ _ ht => ⟨trivial, ht ▸ hs⟩

theorem inChild (h : Avoids r x) : Avoids r (inChild x) :=
  fun s hs => .inChild (h s.opened hs)

/-- The function around a body is restored. -/
theorem inFunction {returns : Ty} (h : Avoids (some returns) x) : Avoids r (inFunction returns x) := by
  intro s hs
  obtain ⟨-, hresult⟩ := h { s with register := some returns } rfl
  refine ⟨rfl, ?_⟩
  unfold Analysis.inFunction
  dsimp only at hresult ⊢
  cases hx : x ⟨s.store, s.env, some returns⟩ with
  | ok a t => exact ⟨trivial, hs⟩
  | error e t =>
    rw [hx] at hresult
    exact hresult

end Avoids

/-! ## Checks -/

section

variable {r : Option Ty} {node : Node} {nodes : List Node}

theorem resolve_avoids {name : Name} : Avoids r (resolve name) := by
  unfold resolve
  split
  · exact .pure trivial
  · exact .raise id

theorem expect_avoids {target : Ty} : Avoids r (expect target node) :=
  Spares.part.bind fun _ _ => (Spares.lift check_clean).any

theorem expectPresent_avoids {target : Ty} : Avoids r (expectPresent target node) :=
  .ite (fun _ => expect_avoids) fun _ => .pure trivial

theorem declaredType_avoids {typeName : Name} {untyped : Fault}
    (h : typeName = none → ¬ untyped.DefendsAnalysis) :
    Avoids r (declaredType typeName node untyped) := by
  cases typeName with
  | some name => exact resolve_avoids
  | none => exact .ite (fun _ => Spares.part.any) fun _ => .raise (h rfl)

theorem returnedType_avoids {typeName : Name} : Avoids r (returnedType typeName) := by
  cases typeName with
  | some name => exact resolve_avoids
  | none => exact .pure trivial

theorem literalType_avoids {v : Value} (h : v.IsLiteral) : Avoids r (literalType v) := by
  unfold literalType
  cases h with
  | nil | boolean | character | string => exact Spares.part.any
  | integer | decimal => exact (Spares.require fun _ => id).bind fun _ _ => .pure trivial

theorem accessed_avoids : Avoids r (accessed node) :=
  Spares.part.bind fun _ _ => .get_bind fun _ _ => Spares.part.any

theorem mapM_avoids {α γ : Type} {f : α → Analysis γ} (h : ∀ a, Avoids r (f a)) (as : List α) :
    Avoids r (as.mapM f) := by
  induction as with
  | nil => exact .pure trivial
  | cons a as ih =>
    rw [List.mapM_cons]
    exact (h a).bind fun _ _ => ih.bind fun _ _ => .pure trivial

theorem forM_avoids {α : Type} {f : α → Analysis PUnit} (h : ∀ a, Avoids r (f a)) (as : List α) :
    Avoids r (as.forM f) := by
  induction as with
  | nil => exact .pure trivial
  | cons a as ih => exact (h a).bind fun _ _ => ih

theorem defineParameters_avoids {place : Place} {names : List Name} {types : List Ty} :
    Avoids r (defineParameters place names types) := by
  induction names generalizing types with
  | nil => exact .pure trivial
  | cons name names ih =>
    cases types with
    | nil => exact .pure trivial
    | cons type types => exact Avoids.defineVariable.bind fun _ _ => ih

/-! ## Parts -/

theorem whenPresent_avoids (h : node.isPresent = true → Avoids r (visit node)) :
    Avoids r (whenPresent node (visit node)) := .ite h fun _ => .pure trivial

theorem visitAll_avoids (h : ∀ n ∈ nodes, Avoids r (visit n)) : Avoids r (visitAll visit nodes) := by
  induction nodes with
  | nil => exact .pure trivial
  | cons n ns ih =>
    obtain ⟨hn, hns⟩ := List.forall_mem_cons.mp h
    rw [visitAll]
    exact hn.bind fun _ _ => (ih hns).bind fun _ _ => .pure trivial

theorem visitArguments_avoids {types : List Ty} (h : ∀ n ∈ nodes, Avoids r (visit n)) :
    Avoids r (visitArguments visit nodes types) := by
  induction nodes generalizing types with
  | nil =>
    rw [visitArguments.eq_def]
    exact .pure trivial
  | cons n ns ih =>
    obtain ⟨hn, hns⟩ := List.forall_mem_cons.mp h
    cases types with
    | nil =>
      rw [visitArguments.eq_def]
      exact .pure trivial
    | cons type types =>
      rw [visitArguments]
      exact hn.bind fun _ _ => expect_avoids.bind fun _ _ => (ih hns).bind fun _ _ => .pure trivial

/-- All cases but the last have a value. -/
theorem visitCaseValues_avoids {condition : Option Ty} {arms : List Node.Arm} {last : Node}
    (h : ∀ a ∈ arms, a.1.isPresent = true ∧ Avoids r (visit a.1)) :
    Avoids r (visitCaseValues visit condition (arms.map Node.ofArm ++ [last])) := by
  induction arms with
  | nil =>
    rw [List.map_nil, List.nil_append, visitCaseValues]
    exact .ite (fun _ => .pure trivial) fun hlast => absurd rfl hlast
  | cons a arms ih =>
    obtain ⟨⟨hpresent, ha⟩, harms⟩ := List.forall_mem_cons.mp h
    have hvalue : Avoids r (visitCaseValue visit (Node.ofArm a)) := by
      rw [Node.ofArm, visitCaseValue]
      refine (Spares.require fun habsent => ?_).bind fun _ _ => ha
      cases hpresent.symm.trans habsent
    rw [List.map_cons, List.cons_append, visitCaseValues]
    refine .ite (fun _ => .pure trivial) fun _ => hvalue.bind fun _ _ => Spares.part.bind fun _ _ => ?_
    exact expect_avoids.bind fun _ _ => (ih harms).bind fun _ _ => .pure trivial

theorem requireDefault_avoids {cases : List Node} {ss : List Node} {p : Place} :
    Avoids r (requireDefault (cases ++ [.case .missing ss p])) := by
  unfold requireDefault
  rw [List.getLast?_append]
  exact fun _ hs => .of_ok rfl ⟨trivial, hs⟩

/-! ## Nodes -/

section

variable {N : String → Prop} {n : Node} {returns : Ty}

theorem visit_expression_avoids (hn : n.IsExpression N)
    (h : ∀ e ∈ n.children, e.IsExpression N → Avoids r (visit e)) : Avoids r (visit n) := by
  rw [visit_eq]
  refine Spares.attached ?_
  cases hn with
  | literal hv => exact (literalType_avoids hv).bind fun _ _ => .pure trivial
  | group he =>
    refine (Spares.require fun _ => id).bind fun _ _ => ?_
    exact (h _ List.mem_cons_self he).bind fun _ _ => Spares.part.bind fun _ _ => .pure trivial
  | binary hop hleft _ hright _ =>
    refine (h _ List.mem_cons_self hleft).bind fun _ _ => ?_
    refine (h _ (List.mem_cons_of_mem _ List.mem_cons_self) hright).bind fun _ _ => ?_
    refine Spares.part.bind fun _ _ => Spares.part.bind fun _ _ => ?_
    exact (Spares.lift (resultType_clean hop)).bind fun _ _ => .pure trivial
  | reference =>
    have habsent : Avoids r (whenPresent .missing (visit .missing)) :=
      whenPresent_avoids fun hpresent => by cases hpresent
    exact Avoids.lookupVariable.bind fun _ _ => habsent.bind fun _ _ =>
      expectPresent_avoids.bind fun _ _ => .pure trivial
  | item _ ho =>
    have hoffset := whenPresent_avoids fun _ => h _ List.mem_cons_self ho
    exact Avoids.lookupVariable.bind fun _ _ => hoffset.bind fun _ _ =>
      expectPresent_avoids.bind fun _ _ => .pure trivial
  | call _ harguments =>
    refine Avoids.lookupFunction.bind fun _ _ => ?_
    exact (visitArguments_avoids fun a ha => h a ha (harguments a ha)).bind fun _ _ => .pure trivial

/-- The grammar gives lists at least one element. -/
theorem visit_listLiteral_avoids {e : Node} {es : List Node} {t : Option Ty} {p : Place}
    (h : ∀ a ∈ e :: es, Avoids r (visit a)) : Avoids r (visit (.listLiteral (e :: es) t p)) := by
  rw [visit_eq]
  refine Spares.attached ?_
  refine (Spares.require fun hempty => ?_).bind fun _ _ => ?_
  · simp at hempty
  refine (visitAll_avoids h).bind fun _ _ => Spares.part.bind fun _ _ => ?_
  exact (forM_avoids (fun _ => expect_avoids) _).bind fun _ _ => .pure trivial

/-- A switch has a default behind its other cases, whose values it visits before all cases. -/
theorem visit_switch_avoids {c : Node} {arms : List Node.Arm} {ss : List Node} {p q : Place}
    (hc : Avoids r (visit c)) (hvalues : ∀ a ∈ arms, a.1.isPresent = true ∧ Avoids r (visit a.1))
    (hcases : ∀ m ∈ arms.map Node.ofArm ++ [.case .missing ss q], Avoids r (visit m)) :
    Avoids r (visit (.switch c (arms.map Node.ofArm ++ [.case .missing ss q]) p)) := by
  rw [visit_eq]
  refine Spares.attached ?_
  refine hc.bind fun _ _ => requireDefault_avoids.bind fun _ _ => ?_
  refine (visitCaseValues_avoids hvalues).bind fun _ _ => ?_
  exact (visitAll_avoids hcases).bind fun _ _ => .pure trivial

/-- Statements are inside a function. -/
theorem visit_statement_avoids (hn : n.IsStatement N)
    (hoperand : ∀ e ∈ n.children, e.Plays N .operand → Avoids (some returns) (visit e))
    (haction : ∀ s ∈ n.children, s.Plays N .action → Avoids (some returns) (visit s))
    (hvalue : ∀ m ∈ n.children, ∀ value ∈ m.caseValue?, value.IsExpression N →
      Avoids (some returns) (visit value)) : Avoids (some returns) (visit n) := by
  have hblock (ss : List Node) (hmem : ∀ s ∈ ss, s ∈ n.children) (h : ∀ s ∈ ss, s.IsStatement N) :
      Avoids (some returns) (visitAll visit ss) :=
    visitAll_avoids fun s hs => haction s (hmem s hs) (.statement (h s hs))
  cases hn with
  | expressionStatement he =>
    rw [visit_eq]
    refine Spares.attached ((Spares.require fun _ => id).bind fun _ _ => ?_)
    exact (hoperand _ List.mem_cons_self (.expression he)).bind fun _ _ => .pure trivial
  | declaration _ _ hv =>
    rw [visit_eq]
    refine Spares.attached ((Spares.require fun _ => id).bind fun _ _ => ?_)
    refine (whenPresent_avoids fun hp => hoperand _ List.mem_cons_self (hv.plays hp)).bind fun _ _ => ?_
    refine (declaredType_avoids fun _ => id).bind fun _ _ => ?_
    exact Avoids.defineVariable.bind fun _ _ => expectPresent_avoids.bind fun _ _ => .pure trivial
  | assignment hreceiver hv =>
    have hreceiver := hoperand _ List.mem_cons_self (.expression hreceiver)
    have hv := hoperand _ (List.mem_cons_of_mem _ List.mem_cons_self) (.expression hv)
    rw [visit_eq]
    refine Spares.attached ((Spares.require fun _ => id).bind fun _ _ => ?_)
    refine hreceiver.bind fun _ _ => accessed_avoids.bind fun _ _ => ?_
    refine (Spares.require fun _ => id).bind fun _ _ => hv.bind fun _ _ => ?_
    exact Spares.part.bind fun _ _ => expect_avoids.bind fun _ _ => .pure trivial
  | @conditional c ss ts _ hc hss hts =>
    have hthen := hblock ss (fun s hs => List.mem_cons_of_mem _ (List.mem_append_left ts hs)) hss
    have helse := hblock ts (fun s hs => List.mem_cons_of_mem _ (List.mem_append_right ss hs)) hts
    rw [visit_eq]
    refine Spares.attached ((hoperand _ List.mem_cons_self (.expression hc)).bind fun _ _ => ?_)
    refine expect_avoids.bind fun _ _ => (Spares.require fun _ => id).bind fun _ _ => ?_
    exact hthen.inChild.bind fun _ _ => helse.inChild.bind fun _ _ => .pure trivial
  | @switch c ss p q arms hc hvalues harms hlast =>
    have harm (a : Node.Arm) (ha : a ∈ arms) :
        Node.ofArm a ∈ c :: (arms.map Node.ofArm ++ [.case .missing ss q]) :=
      List.mem_cons_of_mem _ (List.mem_append_left _ (List.mem_map_of_mem ha))
    refine visit_switch_avoids (hoperand _ List.mem_cons_self (.expression hc))
      (fun a ha => ⟨(hvalues a ha).isPresent, hvalue _ (harm a ha) a.1 rfl (hvalues a ha)⟩)
      fun m hm => haction m (List.mem_cons_of_mem _ hm) ?_
    rcases List.mem_append.mp hm with hm | hm
    · obtain ⟨a, ha, rfl⟩ := List.mem_map.mp hm
      exact .case (harms a ha)
    · rw [List.mem_singleton.mp hm]
      exact .case hlast
  | @whileLoop c ss _ hc hss =>
    have hbody := hblock ss (fun s hs => List.mem_cons_of_mem _ hs) hss
    rw [visit_eq]
    refine Spares.attached ((hoperand _ List.mem_cons_self (.expression hc)).bind fun _ _ => ?_)
    exact expect_avoids.bind fun _ _ => hbody.inChild.bind fun _ _ => .pure trivial
  | returning he =>
    rw [visit_eq]
    refine Spares.attached (.get_bind fun s hs => ?_)
    rw [hs]
    refine (hoperand _ List.mem_cons_self (.expression he)).bind fun _ _ => ?_
    exact expect_avoids.bind fun _ _ => .pure trivial

theorem visit_case_avoids {value : Node} {ss : List Node} {p : Place} (h : ∀ s ∈ ss, Avoids r (visit s)) :
    Avoids r (visit (.case value ss p)) := by
  rw [visit_eq]
  exact Spares.attached ((visitAll_avoids h).inChild.bind fun _ _ => .pure trivial)

theorem visit_global_avoids (hn : n.IsGlobal N)
    (h : ∀ e ∈ n.children, e.Plays N .operand → Avoids r (visit e)) : Avoids r (visit n) := by
  obtain ⟨name, typeName, mutable, value, b, p, rfl, hv⟩ := hn.exists_eq
  rw [visit_eq]
  refine Spares.attached ?_
  refine (whenPresent_avoids fun hp => h value List.mem_cons_self (hv hp)).bind fun _ _ => ?_
  refine (declaredType_avoids fun hnone => ?_).bind fun _ _ => Avoids.defineVariable.bind fun _ _ => ?_
  · cases hnone
  · exact expectPresent_avoids.bind fun _ _ => .pure trivial

/-- The names and types of the parameters come in pairs. -/
theorem visit_function_avoids (hn : n.IsFunction N)
    (h : ∀ returns, ∀ s ∈ n.children, s.IsStatement N → Avoids (some returns) (visit s)) :
    Avoids r (visit n) := by
  rw [visit_eq]
  refine Spares.attached ?_
  cases hn with
  | function parameters _ _ _ hss =>
    refine (Spares.require fun hlength => ?_).bind fun _ _ => ?_
    · simp at hlength
    refine (mapM_avoids (fun _ => resolve_avoids) _).bind fun _ _ => ?_
    refine returnedType_avoids.bind fun returns _ => Avoids.defineFunction.bind fun _ _ => ?_
    refine Spares.bind (Avoids.inFunction (.inChild ?_)) fun _ _ => .pure trivial
    exact defineParameters_avoids.bind fun _ _ => visitAll_avoids fun s hs => h returns s hs (hss s hs)

/-- **No node inside a program** gives rise to a defensive fault. -/
theorem visit_avoids (n : Node) : ∀ role r, n.Plays N role →
    (role = .action → r.isSome) → Avoids r (visit n) := by
  -- a switch visits the values of its cases, so the statement is about those of a node as well
  suffices h : (∀ role r, n.Plays N role → (role = .action → r.isSome) → Avoids r (visit n)) ∧
      ∀ value ∈ n.caseValue?, ∀ r, value.IsExpression N → Avoids r (visit value) from h.1
  induction n using Node.forall_of_children with | _ n ih => ?_
  have hoperand (r : Option Ty) (e : Node) (he : e ∈ n.children) (h : e.Plays N .operand) :
      Avoids r (visit e) := (ih e he).1 .operand r h fun haction => by cases haction
  have haction (returns : Ty) (s : Node) (hs : s ∈ n.children) (h : s.Plays N .action) :
      Avoids (some returns) (visit s) := (ih s hs).1 .action _ h fun _ => rfl
  refine ⟨fun role r hn hr => ?_,
    fun value hvalue r he => hoperand r value (Node.mem_children_of_caseValue? hvalue) (.expression he)⟩
  cases hn with
  | expression he => exact visit_expression_avoids he fun e hmem h => hoperand r e hmem (.expression h)
  | list hes => exact visit_listLiteral_avoids fun a ha => hoperand r a ha (.expression (hes a ha))
  | statement hs =>
    obtain ⟨returns, rfl⟩ := Option.isSome_iff_exists.mp (hr rfl)
    exact visit_statement_avoids hs (hoperand _) (haction returns)
      fun m hm value hvalue => (ih m hm).2 value hvalue _
  | case hss =>
    obtain ⟨returns, rfl⟩ := Option.isSome_iff_exists.mp (hr rfl)
    exact visit_case_avoids fun s hs => haction returns s (List.mem_cons_of_mem _ hs) (.statement (hss s hs))
  | global hg => exact visit_global_avoids hg (hoperand r)
  | function hf => exact visit_function_avoids hf fun returns s hs h => haction returns s hs (.statement h)

end

/-- A program is visited outside of functions. -/
theorem visit_program_avoids {N : String → Prop} {d : Node} (hd : d.IsProgram N) :
    Avoids none (visit d) := by
  obtain ⟨hgs, hfs⟩ := hd
  rw [visit_eq]
  refine Spares.attached ?_
  have hbinder (n : Node) (hn : n.Plays N .binder) : Avoids none (visit n) :=
    visit_avoids n .binder none hn fun haction => by cases haction
  have hglobals := visitAll_avoids fun g hg => hbinder g (.global (hgs g hg))
  have hfunctions := visitAll_avoids fun f hf => hbinder f (.function (hfs f hf))
  refine hglobals.bind fun _ _ => hfunctions.bind fun _ _ => Avoids.lookupFunction.bind fun _ _ => ?_
  exact (Spares.require fun _ => id).bind fun _ _ => .pure trivial

end

end Analysis

/-- **The analysis of a program never ends with a defensive fault.** -/
theorem Node.IsProgram.analyze_avoids {N : String → Prop} {d : Node} {e : Stop} (hd : d.IsProgram N)
    (he : d.analyze = .error e) : e.Avoids Fault.DefendsAnalysis := by
  have hresult := (Analysis.visit_program_avoids hd (Analysis.start {} none) rfl).2
  unfold analyze at he
  cases hv : Analysis.visit d (Analysis.start {} none) with
  | ok a t =>
    rw [hv] at he
    cases he
  | error e t =>
    rw [hv] at he hresult
    cases he
    exact hresult

end PlcLang
