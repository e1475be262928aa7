import PlcLang.Proofs.Evaluation.Operable
import PlcLang.Proofs.Evaluation.Settled
import PlcLang.Proofs.Visits

/-!
# Visits in a run

A run hands on the errors of the nodes that it evaluates; what it finds out itself is bare.

* `Run.bare_of_ends`, `Run.operate_bare`, …: checks and operations.
* `Run.block_relays`, `Run.invoke_relayed`, …: the parts of a step.
* `Run.walker`: the evaluation of nodes as a walker.
* `Run.Regime.holds_of_visits`: what all evaluations inside an evaluation keep.
-/

namespace PlcLang

namespace Store

variable {β : Type} {s : Store β} {e : Stop} {l r v : Value}

theorem isBare_of_text (h : s.text v = .error e) : e.IsBare :=
  of_text h (fun _ => .unfinished) fun _ => .overlong

theorem isBare_of_typeOf (h : s.typeOf v = .error e) : e.IsBare :=
  of_typeOf h (fun _ => .unfinished) (fun _ => .overlong) fun _ => .raised _

theorem isBare_of_equal (h : s.equal l r = .error e) : e.IsBare :=
  of_equalWithin (P := fun _ => True) .unfinished (fun _ _ _ => isBare_of_typeOf)
    (fun _ _ _ => trivial) trivial trivial h

end Store

namespace Run

open Walk

variable {P : Node → Prop} {F : Stop → Prop} {op : Operator} {l r v : Value} {name : Name}
  {place : Place} {node : Node} {nodes : List Node}

/-! ## Checks and operations -/

theorem bare_of_ends {α : Type} {x : Run α} {Q : State Body String → α → State Body String → Prop}
    (h : ∀ s, Ends Stop.IsBare x s (Q s)) : Bare x := by
  intro s e t he
  have hresult := (h s).2
  rwa [he] at hresult

theorem answers_bare {s : State Body String} : Answers Stop.IsBare s v :=
  ⟨fun _ _ => .raised _, Store.isBare_of_typeOf, Store.isBare_of_text⟩

theorem operable_bare {s : State Body String} : Operable Stop.IsBare s l r :=
  ⟨answers_bare, answers_bare, Store.isBare_of_equal, fun _ _ _ => .unordered⟩

theorem requireBoolean_bare : Bare (requireBoolean v) :=
  bare_of_ends fun _ => answers_bare.requireBoolean_ends

theorem requireInteger_bare : Bare (requireInteger v) :=
  bare_of_ends fun _ => answers_bare.requireInteger_ends

theorem requireList_bare : Bare (requireList name v) :=
  bare_of_ends fun _ => requireList_ends (.raised _)

theorem requireIndex_bare {id : ListId} {i : Int} : Bare (requireIndex id i) :=
  bare_of_ends fun _ => requireIndex_ends fun _ => .raised _

theorem operate_bare : Bare (operate op l r) :=
  bare_of_ends fun _ => operable_bare.operate_gives fun _ _ => .raised _

theorem equal_bare : Bare (equal l r) := .reading Store.isBare_of_equal

theorem textOf_bare : Bare (textOf v) := .reading Store.isBare_of_text

theorem printLine_bare {text : String} : Bare (printLine text) := .of_ok fun _ => ⟨_, _, rfl⟩

theorem newList_bare {items : List Value} : Bare (newList items) := .of_ok fun _ => ⟨_, _, rfl⟩

theorem modifyStore_bare {f : Store Body → Store Body} : Bare (modifyStore f) :=
  .of_ok fun _ => ⟨_, _, rfl⟩

theorem bindParameters_bare {names : List Name} {arguments : List Value} :
    Bare (bindParameters place names arguments) := by
  fun_induction bindParameters with
  | case1 _ _ _ _ ih => exact Bare.inStore.bind fun _ => ih
  | case2 => exact .pure

/-! ## Parts of a step -/

theorem block_relays (h : ∀ n ∈ nodes, P n) : Relays P F fun V => block V nodes := by
  induction nodes with
  | nil => exact .pure
  | cons n ns ih =>
    obtain ⟨hn, hns⟩ := List.forall_mem_cons.mp h
    refine Relays.bind (.visit hn) fun v => ?_
    cases v with
    | returned r => exact .pure
    | _ => exact ih hns

theorem values_relays (h : ∀ n ∈ nodes, P n) : Relays P F fun V => values V nodes := by
  induction nodes with
  | nil => exact .pure
  | cons n ns ih =>
    obtain ⟨hn, hns⟩ := List.forall_mem_cons.mp h
    exact Relays.bind (.visit hn) fun _ => (ih hns).bind fun _ => .pure

/-- What depends on the visits of any nodes. -/
abbrev Relayed {α : Type} (w : Tour Body String Value α) : Prop := Relays (fun _ => True) Stop.IsBare w

theorem visit_relayed : Relayed fun V => V node := .visit trivial

theorem inBlock_relayed : Relayed fun V => inChild (block V nodes) :=
  (block_relays fun _ _ => trivial).inChild

theorem invoke_relayed {f : Function Body} {arguments : List Value} :
    Relayed fun V => invoke V f arguments := by
  refine .bare_bind .lift fun body => ?_
  cases body with
  | print => exact .bare_bind textOf_bare fun _ => .of_bare (printLine_bare.bind fun _ => .pure)
  | code env names statements place =>
    have hblock : Relayed fun V => block V statements := block_relays fun _ _ => trivial
    refine Relays.inChildOf (.bare_bind bindParameters_bare fun _ => hblock.bind fun v => ?_)
    cases v with
    | returned r => exact .pure
    | _ => exact .pure

theorem callWith_relayed : Relayed fun V => callWith V name nodes :=
  .bare_bind .inStore fun _ => (values_relays fun _ _ => trivial).bind fun _ => invoke_relayed

theorem choose_relayed {default : Option Node} : Relayed fun V => choose V v default nodes := by
  induction nodes generalizing default with
  | nil =>
    cases default with
    | some n => exact visit_relayed
    | none => exact .pure
  | cons n ns ih =>
    refine .bare_bind .part fun value => .ite ?_ ih
    exact visit_relayed.bind fun w => .bare_bind equal_bare fun _ => .ite visit_relayed ih

theorem repeatWhile_relayed (rounds : Nat) : Relayed fun V => repeatWhile V node nodes rounds := by
  induction rounds with
  | zero => exact .of_bare (.throw .unfinished)
  | succ rounds ih =>
    refine visit_relayed.bind fun w => .bare_bind requireBoolean_bare fun _ => .ite ?_ .pure
    refine inBlock_relayed.bind fun v => ?_
    cases v with
    | returned r => exact .pure
    | _ => exact ih

theorem valueOf_relayed : Relayed fun V => valueOf V node := .ite visit_relayed .pure

theorem declare_relayed {mutable : Option Bool} : Relayed fun V => declare V name mutable node place :=
  valueOf_relayed.bind fun _ => .bare_bind .inStore fun _ => .pure

theorem assign_relayed {offset value : Node} : Relayed fun V => assign V name offset value := by
  refine .bare_bind .inStore fun found => .bare_bind .require fun _ => .ite ?_ ?_
  · refine .bare_bind requireList_bare fun _ => visit_relayed.bind fun _ => ?_
    refine .bare_bind requireInteger_bare fun _ => visit_relayed.bind fun _ => ?_
    exact .bare_bind requireIndex_bare fun _ => .of_bare modifyStore_bare
  · exact visit_relayed.bind fun _ => .of_bare modifyStore_bare

theorem access_relayed : Relayed fun V => access V name node := by
  refine .bare_bind .inStore fun found => .ite ?_ .pure
  refine .bare_bind requireList_bare fun _ => visit_relayed.bind fun _ => ?_
  refine .bare_bind requireInteger_bare fun _ => .bare_bind requireIndex_bare fun _ => ?_
  exact .of_bare (Bare.get.bind fun _ => .part)

theorem operation_relayed {left right : Node} : Relayed fun V => operation V op left right := by
  refine visit_relayed.bind fun a => ?_
  have hright : Relayed fun V => do return Value.boolean (← requireBoolean (← V right)) :=
    visit_relayed.bind fun _ => .bare_bind requireBoolean_bare fun _ => .pure
  have hboth : Relayed fun V => V right >>= operate op a :=
    visit_relayed.bind fun _ => .of_bare operate_bare
  cases op with
  | and => exact .bare_bind requireBoolean_bare fun _ => .ite hright .pure
  | or => exact .bare_bind requireBoolean_bare fun _ => .ite .pure hright
  | _ => exact hboth

theorem branch_relayed {ts es : List Node} : Relayed fun V => branch V node ts es :=
  visit_relayed.bind fun _ => .bare_bind requireBoolean_bare fun _ => .ite inBlock_relayed inBlock_relayed

theorem runProgram_relayed {gs fs : List Node} : Relayed fun V => runProgram V gs fs :=
  (values_relays fun _ _ => trivial).bind fun _ => (values_relays fun _ _ => trivial).bind fun _ =>
    .bare_bind .inStore fun _ => invoke_relayed

/-- **A step hands on the errors of the nodes that it evaluates.** -/
theorem step_relayed (rounds : Nat) (n : Node) : Relayed fun V => step V rounds n := by
  have hdone {α : Type} {w : Tour Body String Value α} {v : Value} (hw : Relayed w) :
      Relayed fun V => do
        let _ ← w V
        return v :=
    hw.bind fun _ => .pure
  cases n with
  | missing | bare => exact .of_bare .raise
  | literal => exact .pure
  | group => exact visit_relayed
  | binary => exact operation_relayed
  | access => exact access_relayed
  | call => exact callWith_relayed
  | listLiteral => exact (values_relays fun _ _ => trivial).bind fun _ => .of_bare newList_bare
  | expressionStatement => exact hdone visit_relayed
  | declaration | global => exact hdone declare_relayed
  | assignment receiver value =>
    cases receiver with
    | access => exact hdone assign_relayed
    | _ => exact .of_bare .raise
  | conditional => exact branch_relayed
  | case => exact inBlock_relayed
  | switch => exact visit_relayed.bind fun _ => choose_relayed
  | whileLoop => exact repeatWhile_relayed rounds
  | returning => exact visit_relayed.bind fun _ => .pure
  | function =>
    exact .of_bare (Bare.bind (Bare.get.bind fun _ => Bare.inStore.bind fun _ => .pure) fun _ => .pure)
  | source => exact runProgram_relayed

/-! ## Runs as walkers -/

/-- What the evaluation of a node consists of. -/
def tour : (depth : Nat) → Node → Tour Body String Value Value
  | 0, _ => fun _ => throw .unfinished
  | depth + 1, node => fun V => step V depth node

/-- The evaluation of nodes: every visit is one level less deep than the one around it. -/
def walker : Walker Body String Value where
  visit := visit
  tour := tour
  visit_eq depth node := by cases depth <;> rfl
  reach depth _ _ := 0 < depth
  relays depth node := by
    cases depth with
    | zero => exact .of_bare (.throw .unfinished)
    | succ depth => exact (step_relayed depth node).mono fun _ _ => Nat.succ_pos depth
  rank depth _ := depth
  rank_lt := Nat.sub_one_lt_of_lt
  missing depth := by
    intro s e t he
    cases depth with
    | zero =>
      cases he
      exact .unfinished
    | succ depth =>
      cases he
      exact .raised _

variable {R : Regime} {depth d : Nat} {n m : Node} {s u : State Body String} {e : Stop}

/-- If the regime is not kept where a node is evaluated, a step need not ask how that ends. -/
theorem Regime.step_spoiled (hR : R.Lawful) (hcheck : ∀ depth n s, R.check depth n s)
    (hm : ¬ (R.good d m ∧ R.Holds u)) (hn : R.good (d + 1) n) (hs : R.Holds s) :
    step (spoiled (visit d) m u e) d n s = step (visit d) d n s := by
  have hupheld : Upheld R (fun _ => False) d (visit d) (spoiled (visit d) m u e) := fun k v hk hv =>
    (upheld_visit hR hcheck d k v hk hv).congr rfl (spoiled_of_ne fun heq => hm (by cases heq; exact ⟨hk, hv⟩))
  have hrounds : d = d ∨ False ∧ d ≤ d := .inl rfl
  have hfollows := step_follows hR hupheld (fun _ _ _ _ hv => hv) hrounds hn hs (hcheck _ _ _)
  exact hfollows.excused_or_eq.resolve_left fun ⟨_, _, _, hfalse⟩ => hfalse

/-- **Evaluations keep a regime inside.** If a node may be evaluated, so may those to whose evaluation
that comes. -/
theorem Regime.holds_of_visits (hR : R.Lawful) (hcheck : ∀ depth n s, R.check depth n s)
    (h : walker.Visits depth n s m u) (hn : R.good depth n) (hs : R.Holds s) :
    R.good (depth - 1) m ∧ R.Holds u := by
  obtain ⟨d, rfl⟩ := Nat.exists_eq_add_one.mpr h.reach
  refine Classical.byContradiction fun hm => ?_
  -- the step would end with either of two stops
  have hstep (e : Stop) : ∃ t, step (visit d) d n s = .error e t := by
    obtain ⟨t, ht⟩ := Tour.Visits.spoiled h e
    exact ⟨t, (Regime.step_spoiled hR hcheck hm hn hs).symm.trans ht⟩
  obtain ⟨_, hunfinished⟩ := hstep .unfinished
  obtain ⟨_, hmalformed⟩ := hstep .malformed
  cases hunfinished.symm.trans hmalformed

end Run

end PlcLang
