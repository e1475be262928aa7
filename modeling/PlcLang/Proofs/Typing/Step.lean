import PlcLang.Proofs.Shape
import PlcLang.Typing.Analysis

/-!
# Steps of an analysis

The analysis of a node is a step whose parts are analyzed alike. The bound on the levels of the tree
plays no role as long as it is not less than the height.

* `Analysis.step_congr`, `Analysis.step_congr_of_height`: a step depends on the visits of the parts only.
* `Analysis.visitWithin_eq`: the bound on the levels.
* `Analysis.visit_eq`: the analysis is one step after another.
-/

namespace PlcLang.Analysis

open Walk

section

variable {V W : Node → Analysis Node} {nodes : List Node}

theorem visitAll_congr (h : ∀ n ∈ nodes, V n = W n) : visitAll V nodes = visitAll W nodes := by
  induction nodes with
  | nil => rfl
  | cons n ns ih =>
    obtain ⟨hn, hns⟩ := List.forall_mem_cons.mp h
    rw [visitAll, visitAll, hn, ih hns]

theorem visitArguments_congr (h : ∀ n ∈ nodes, V n = W n) (types : List Ty) :
    visitArguments V nodes types = visitArguments W nodes types := by
  induction nodes generalizing types with
  | nil => rfl
  | cons n ns ih =>
    obtain ⟨hn, hns⟩ := List.forall_mem_cons.mp h
    cases types with
    | nil => rfl
    | cons type types => rw [visitArguments, visitArguments, hn, ih hns]

/-- The value of a case is there, or the case stands too early. -/
theorem visitCaseValue_case {value : Node} {ss : List Node} {p : Place} :
    visitCaseValue V (.case value ss p) = (do
      require value.isPresent .earlyDefault
      V value) := rfl

theorem visitCaseValue_congr {n : Node} (h : ∀ value, n.caseValue? = some value → V value = W value) :
    visitCaseValue V n = visitCaseValue W n := by
  unfold visitCaseValue
  cases hvalue : n.caseValue? with
  | none => rfl
  | some value => simp only [part, pure_bind, h value hvalue]

theorem visitCaseValues_congr (h : ∀ n ∈ nodes, ∀ value, n.caseValue? = some value → V value = W value)
    (condition : Option Ty) : visitCaseValues V condition nodes = visitCaseValues W condition nodes := by
  induction nodes with
  | nil => rfl
  | cons n ns ih =>
    obtain ⟨hn, hns⟩ := List.forall_mem_cons.mp h
    rw [visitCaseValues, visitCaseValues, visitCaseValue_congr hn, ih hns]

/-- **A step depends on the visits of the parts only.** -/
theorem step_congr {n : Node} (h : ∀ c ∈ n.children, V c = W c)
    (hvalues : ∀ c ∈ n.children, ∀ value, c.caseValue? = some value → V value = W value) :
    step V n = step W n := by
  have hhead {c : Node} {cs : List Node} (hn : n.children = c :: cs) : V c = W c ∧ ∀ c ∈ cs, V c = W c :=
    List.forall_mem_cons.mp (hn ▸ h)
  cases n with
  | missing | bare | literal => rfl
  | source =>
    obtain ⟨hgs, hfs⟩ := List.forall_mem_append.mp h
    rw [step, step, visitAll_congr hgs, visitAll_congr hfs]
  | global | expressionStatement | declaration | returning | group | access =>
    rw [step, step, (hhead rfl).1]
  | function _ _ _ _ ss =>
    have hss : visitAll V ss = visitAll W ss := visitAll_congr h
    simp only [step, visitBody, hss]
  | binary | assignment =>
    obtain ⟨hleft, hrest⟩ := hhead rfl
    rw [step, step, hleft, List.forall_mem_singleton.mp hrest]
  | conditional =>
    obtain ⟨hcondition, hrest⟩ := hhead rfl
    obtain ⟨hthen, helse⟩ := List.forall_mem_append.mp hrest
    rw [step, step, hcondition, visitAll_congr hthen, visitAll_congr helse]
  | switch =>
    obtain ⟨hcondition, hcases⟩ := hhead rfl
    have hcaseValues := visitCaseValues_congr fun c hc => hvalues c (List.mem_cons_of_mem _ hc)
    simp only [step, hcondition, hcaseValues, visitAll_congr hcases]
  | case => rw [step, step, visitAll_congr (hhead rfl).2]
  | whileLoop =>
    obtain ⟨hcondition, hstatements⟩ := hhead rfl
    rw [step, step, hcondition, visitAll_congr hstatements]
  | call _ es =>
    have hes (types : List Ty) : visitArguments V es types = visitArguments W es types :=
      visitArguments_congr h types
    simp only [step, hes]
  | listLiteral es =>
    have hes : visitAll V es = visitAll W es := visitAll_congr h
    rw [step, step, hes]

/-- The parts are lower than the node, and so are the values of cases among them. -/
theorem step_congr_of_height {n : Node} (h : ∀ m, m.height < n.height → V m = W m) :
    step V n = step W n := by
  refine step_congr (fun c hc => h c (Node.height_lt_of_mem_children hc)) fun c hc value hvalue => h value ?_
  exact Node.height_lt_of_contains_child (.child .self hc) (Node.mem_children_of_caseValue? hvalue)

end

/-- All bounds that are not less than the height of the tree give the same analysis. -/
theorem visitWithin_congr {depth depth' : Nat} {n : Node} (h : n.height ≤ depth) (h' : n.height ≤ depth') :
    visitWithin depth n = visitWithin depth' n := by
  induction depth generalizing depth' n with
  | zero => exact absurd n.height_pos (Nat.not_lt.mpr h)
  | succ depth ih =>
    cases depth' with
    | zero => exact absurd n.height_pos (Nat.not_lt.mpr h')
    | succ depth' =>
      refine congrArg (attached n) (step_congr_of_height fun m hm => ?_)
      exact ih (by omega) (by omega)

theorem visitWithin_eq {depth : Nat} {n : Node} (h : n.height ≤ depth) : visitWithin depth n = visit n :=
  visitWithin_congr h (Nat.le_refl _)

/-- **The analysis is one step after another.** -/
theorem visit_eq (n : Node) : visit n = attached n (step visit n) := by
  rw [← visitWithin_eq (Nat.le_succ n.height)]
  refine congrArg (attached n) (step_congr_of_height fun m hm => ?_)
  exact visitWithin_eq (Nat.le_of_lt hm)

end PlcLang.Analysis
