import PlcLang.Proofs.Defensive
import PlcLang.Proofs.Evaluation.Operable
import PlcLang.Proofs.Evaluation.Regime
import PlcLang.Proofs.Grammar.Sound
import PlcLang.Proofs.Typing.Defensive
import PlcLang.Proofs.Typing.Skeleton

/-!
# Defensive faults of a run

The run of a program that has a text never ends with a defensive fault, whatever the analysis has said:
the values in the store belong to the language, what can be called has a body, and it is called with as
many arguments as it was looked up with.

* `Value.IsData`, `Role.Gives`: the values of the language, and what a node leaves.
* `Run.Yields`: walks that end without such a fault and keep the store so.
* `Run.visit_serves`: all nodes inside a program.
* `Node.parse?_avoids_defensive`: the analysis and the run of what was read.
-/

namespace PlcLang

/-! ## Values -/

/-- The value belongs to the language: a scalar that has a type, or a list. -/
def Value.IsData : Value → Prop
  | scalar a => a.type?.isSome = true
  | list _ => True
  | carryOn | returned _ => False

/-- What a node leaves that is there for something. -/
def Role.Gives : Role → Value → Prop
  | operand, v => v.IsData
  | action, v => v = .carryOn ∨ ∃ r : Value, v = .returned r ∧ r.IsData
  | binder, _ => True

theorem Value.IsLiteral.isData {v : Value} (h : v.IsLiteral) : v.IsData := by
  cases h <;> rfl

theorem Operator.Gives.isData {op : Operator} {l r v : Value} (h : op.Gives l r v) : v.IsData := by
  cases h <;> rfl

theorem Store.typeOf_ne_error {β : Type} {s : Store β} {v : Value} {e : Stop} (hv : v.IsData) :
    s.typeOf v ≠ .error e := by
  cases v with
  | scalar a =>
    obtain ⟨t, ht⟩ := Option.isSome_iff_exists.mp hv
    simp [typeOf, ht]
  | list id => exact nofun
  | carryOn | returned => exact hv.elim

/-! ## Faults -/

theorem Fault.IsOperational.not_defendsRun {f : Fault} (h : f.IsOperational) : ¬ f.DefendsRun := by
  intro hf
  cases f with
  | unsupportedNode | unknownOperator | foreignValue | bodyless | argumentCount => cases h
  | _ => exact hf

namespace Run

open Walk

/-- What a run of a program that has a text keeps: variables and lists hold data, and what can be called
prints or consists of statements. -/
def written (N : String → Prop) : Regime where
  fits _ := Value.IsData
  runs f := f.body.isSome = true ∧ f.HasCode (·.IsStatement N)
  tame _ := True
  good _ n := ∃ role, n.Plays N role
  check _ _ _ := True
  allows := Stop.Avoids Fault.DefendsRun

theorem written_stable {N : String → Prop} : (written N).Stable := ⟨fun _ h => h, fun _ h => h⟩

/-- The walk ends with no defensive fault. If there is a result, it satisfies `Q`, and the store is as it
should be. -/
abbrev Yields (N : String → Prop) {α : Type} (x : Run α) (Q : α → Prop) : Prop :=
  Spares (written N).Holds Fault.DefendsRun x Q

variable {N : String → Prop} {α : Type} {s : State Body String} {l r v : Value}

/-! ## Operations on data -/

theorem answers_of_isData (h : v.IsData) : Answers (Stop.Avoids Fault.DefendsRun) s v where
  raised hf _ := hf.not_defendsRun
  typeOf he := absurd he (Store.typeOf_ne_error h)
  text he := Store.of_text he (fun _ => trivial) fun _ => trivial

theorem operable_of_isData (hs : (written N).Holds s) (hl : l.IsData) (hr : r.IsData) :
    Operable (Stop.Avoids Fault.DefendsRun) s l r where
  left := answers_of_isData hl
  right := answers_of_isData hr
  equal := Store.of_equalWithin trivial (fun _ _ hv he => absurd he (Store.typeOf_ne_error hv))
    hs.items hl hr
  unordered _ _ _ := trivial

/-! ## Walks -/

namespace Yields

variable {x : Run α} {Q : α → Prop}

theorem inChildOf {outer : Env} (h : Yields N x Q) : Yields N (inChildOf outer x) Q := fun _ hs =>
  .inChildOf <| (h _ (hs.openedIn written_stable outer)).mono fun _ _ ha => ⟨ha.1, ha.2.leaving _⟩

theorem inChild (h : Yields N x Q) : Yields N (inChild x) Q := fun s => h.inChildOf s

theorem lookupVariable {name : Name} : Yields N (lookupVariable name) fun found => found.2.value.IsData :=
  .of_same fun _ hs => (Agrees.lookupVariable_ends id).mono fun _ _ ⟨ht, hfound⟩ =>
    ⟨ht, hs.held _ _ (List.mem_of_find?_eq_some (Store.variableAt?_of_findVariable? hfound))⟩

/-- What a lookup finds can be called with as many arguments. -/
theorem lookupFunction {name : Name} {arity : Nat} :
    Yields N (lookupFunction name arity) fun found => (written N).runs found.2 ∧ found.2.arity = arity :=
  .of_same fun _ hs => (Agrees.lookupFunction_ends id).mono fun _ _ ⟨ht, hfound⟩ =>
    ⟨ht, hs.functions _ _ (List.mem_of_find?_eq_some (Store.functionAt?_of_findFunction? hfound)),
      Store.arity_of_findFunction? hfound⟩

theorem defineVariable {u : Variable} (hu : u.value.IsData) :
    Yields N (defineVariable u) fun _ => True :=
  fun _ hs => (Agrees.defineVariable_ends id).mono fun _ _ ht =>
    ⟨trivial, ht ▸ hs.withVariable written_stable hu⟩

theorem defineFunction {f : Function Body} (hf : (written N).runs f) :
    Yields N (defineFunction f) fun _ => True :=
  fun _ hs => (Agrees.defineFunction_ends id).mono fun _ _ ht =>
    ⟨trivial, ht ▸ hs.withFunction written_stable hf⟩

end Yields

/-! ## Checks and operations -/

theorem requireBoolean_yields (hv : v.IsData) : Yields N (requireBoolean v) fun _ => True :=
  .of_same fun _ _ => (answers_of_isData hv).requireBoolean_ends.mono fun _ _ ht => ⟨ht, trivial⟩

theorem requireInteger_yields (hv : v.IsData) : Yields N (requireInteger v) fun _ => True :=
  .of_same fun _ _ => (answers_of_isData hv).requireInteger_ends.mono fun _ _ ht => ⟨ht.2, trivial⟩

theorem requireList_yields {name : Name} : Yields N (requireList name v) fun _ => True :=
  .of_same fun _ _ => (requireList_ends id).mono fun _ _ ht => ⟨ht.1, trivial⟩

theorem requireIndex_yields {id : ListId} {i : Int} : Yields N (requireIndex id i) fun _ => True :=
  .of_same fun _ _ => (requireIndex_ends fun _ h => h).mono fun _ _ ht => ⟨ht, trivial⟩

theorem equal_yields (hl : l.IsData) (hr : r.IsData) : Yields N (equal l r) fun _ => True :=
  .of_same fun _ hs =>
    .reading (fun _ _ => ⟨rfl, trivial⟩) fun _ he => (operable_of_isData hs hl hr).equal he

theorem textOf_yields (hv : v.IsData) : Yields N (textOf v) fun _ => True :=
  .of_same fun _ _ => (answers_of_isData hv).textOf_ends.mono fun _ _ ht => ⟨ht, trivial⟩

/-- An operator of a level is known. -/
theorem operate_yields {op : Operator} {level : Level} (hop : op.level? = some level) (hl : l.IsData)
    (hr : r.IsData) : Yields N (operate op l r) Value.IsData :=
  .of_same fun _ hs => ((operable_of_isData hs hl hr).operate_gives fun symbol hother => by
    subst hother
    cases hop).mono fun _ _ ⟨ht, hgives⟩ => ⟨ht, hgives.isData⟩

/-! ## Parts of a step -/

/-- Every node inside a program is evaluated without a defensive fault, and leaves what it is there
for. -/
def Serves (N : String → Prop) (V : Node → Run Value) : Prop :=
  ∀ role n, n.Plays N role → Yields N (V n) role.Gives

section

variable {V : Node → Run Value} {name : Name} {place : Place} {node : Node} {nodes : List Node}
  {arguments : List Value}

theorem bindParameters_yields {names : List Name} (h : ∀ v ∈ arguments, v.IsData) :
    Yields N (bindParameters place names arguments) fun _ => True := by
  induction names generalizing arguments with
  | nil => exact .pure trivial
  | cons name names ih =>
    cases arguments with
    | nil => exact .pure trivial
    | cons v vs =>
      obtain ⟨hv, hvs⟩ := List.forall_mem_cons.mp h
      exact (Yields.defineVariable hv).bind fun _ _ => ih hvs

theorem declareFunction_yields {parameters : List Name} (h : ∀ n ∈ nodes, n.IsStatement N) :
    Yields N (declareFunction name parameters nodes place) fun _ => True := by
  refine .get_bind fun _ _ => (Yields.defineFunction ?_).bind fun _ _ => .pure trivial
  refine ⟨rfl, fun env names ss p hbody => ?_⟩
  cases hbody
  exact h

namespace Serves

variable (h : Serves N V)

include h

theorem block (hnodes : ∀ n ∈ nodes, n.IsStatement N) :
    Yields N (block V nodes) Role.action.Gives := by
  induction nodes with
  | nil => exact .pure (.inl rfl)
  | cons n ns ih =>
    obtain ⟨hn, hns⟩ := List.forall_mem_cons.mp hnodes
    refine (h .action n (.statement hn)).bind fun v hv => ?_
    rcases hv with rfl | ⟨r, rfl, hr⟩
    · exact ih hns
    · exact .pure (.inr ⟨r, rfl, hr⟩)

theorem values {role : Role} (hnodes : ∀ n ∈ nodes, n.Plays N role) :
    Yields N (values V nodes) fun vs => vs.length = nodes.length ∧ ∀ v ∈ vs, role.Gives v := by
  induction nodes with
  | nil => exact .pure ⟨rfl, List.forall_mem_nil _⟩
  | cons n ns ih =>
    obtain ⟨hn, hns⟩ := List.forall_mem_cons.mp hnodes
    refine (h role n hn).bind fun v hv => (ih hns).bind fun vs hvs => .pure ⟨?_, ?_⟩
    · rw [List.length_cons, List.length_cons, hvs.1]
    · exact List.forall_mem_cons.mpr ⟨hv, hvs.2⟩

theorem invoke {f : Function Body} (hf : (written N).runs f) (harity : arguments.length = f.arity)
    (harguments : ∀ v ∈ arguments, v.IsData) : Yields N (invoke V f arguments) Value.IsData := by
  obtain ⟨body, hbody⟩ := Option.isSome_iff_exists.mp hf.1
  have hfor : f.bodyFor arguments.length = .ok body := by
    unfold Function.bodyFor
    rw [hbody]
    exact if_pos harity
  refine (Spares.lift fun _ herror => ?_).bind fun b hb => ?_
  · cases hfor.symm.trans herror
  cases hfor.symm.trans hb
  cases body with
  | print =>
    have hfirst : (arguments.headD .nil).IsData := by
      cases arguments with
      | nil => rfl
      | cons v vs => exact harguments v List.mem_cons_self
    refine (textOf_yields hfirst).bind fun text _ s hs => ?_
    exact .of_ok rfl ⟨rfl, hs.of_store_eq rfl⟩
  | code env parameters statements place =>
    refine Yields.inChildOf ((bindParameters_yields harguments).bind fun _ _ => ?_)
    refine (h.block (hf.2 _ _ _ _ hbody)).bind fun v hv => ?_
    rcases hv with rfl | ⟨r, rfl, hr⟩
    · exact .pure rfl
    · exact .pure hr

theorem callWith (hnodes : ∀ n ∈ nodes, n.IsExpression N) :
    Yields N (callWith V name nodes) Value.IsData := by
  refine Yields.lookupFunction.bind fun found ⟨hruns, harity⟩ => ?_
  refine (h.values fun n hn => .expression (hnodes n hn)).bind fun vs ⟨hlength, hvs⟩ => ?_
  exact h.invoke hruns (hlength.trans harity.symm) hvs

/-- All cases but the last have a value. -/
theorem choose {arms : List Node.Arm} {last : List Node} {p : Place} (hv : v.IsData)
    (harms : ∀ a ∈ arms, a.1.IsExpression N ∧ ∀ s ∈ a.2.1, s.IsStatement N)
    (hlast : ∀ s ∈ last, s.IsStatement N) :
    Yields N (choose V v none (arms.map Node.ofArm ++ [.case .missing last p])) Role.action.Gives := by
  induction arms with
  | nil =>
    refine Spares.part.bind fun value hvalue => ?_
    cases hvalue
    exact h .action _ (.case hlast)
  | cons a arms ih =>
    obtain ⟨⟨ha, hss⟩, harms⟩ := List.forall_mem_cons.mp harms
    refine Spares.part.bind fun value hvalue => ?_
    cases hvalue
    refine .ite (fun _ => ?_) fun habsent => absurd ha.isPresent habsent
    refine (h .operand _ (.expression ha)).bind fun u hu => (equal_yields hv hu).bind fun _ _ => ?_
    exact .ite (fun _ => h .action _ (.case hss)) fun _ => ih harms

theorem repeatWhile {rounds : Nat} (hnode : node.IsExpression N)
    (hnodes : ∀ n ∈ nodes, n.IsStatement N) :
    Yields N (repeatWhile V node nodes rounds) Role.action.Gives := by
  induction rounds with
  | zero => exact fun _ _ => .throw trivial
  | succ rounds ih =>
    refine (h .operand _ (.expression hnode)).bind fun b hb => ?_
    refine (requireBoolean_yields hb).bind fun _ _ => .ite (fun _ => ?_) fun _ => .pure (.inl rfl)
    refine (h.block hnodes).inChild.bind fun v hv => ?_
    rcases hv with rfl | ⟨r, rfl, hr⟩
    · exact ih
    · exact .pure (.inr ⟨r, rfl, hr⟩)

theorem branch {ts es : List Node} (hnode : node.IsExpression N) (hts : ∀ n ∈ ts, n.IsStatement N)
    (hes : ∀ n ∈ es, n.IsStatement N) : Yields N (branch V node ts es) Role.action.Gives := by
  refine (h .operand _ (.expression hnode)).bind fun b hb => ?_
  exact (requireBoolean_yields hb).bind fun _ _ =>
    .ite (fun _ => (h.block hts).inChild) fun _ => (h.block hes).inChild

theorem declare {mutable : Option Bool} (hnode : node.isPresent = true → node.Plays N .operand) :
    Yields N (declare V name mutable node place) fun _ => True := by
  have hvalue : Yields N (valueOf V node) Value.IsData :=
    .ite (fun hpresent => h .operand _ (hnode hpresent)) fun _ => .pure rfl
  exact hvalue.bind fun v hv => (Yields.defineVariable hv).bind fun _ _ => .pure trivial

theorem assign {offset value : Node} (hoffset : offset.isPresent = true → offset.IsExpression N)
    (hvalue : value.IsExpression N) : Yields N (assign V name offset value) fun _ => True := by
  refine Yields.lookupVariable.bind fun found _ => (Spares.require fun _ => id).bind fun _ _ => ?_
  refine .ite (fun hpresent => ?_) fun _ => ?_
  · refine requireList_yields.bind fun id _ => ?_
    refine (h .operand _ (.expression (hoffset hpresent))).bind fun i hi => ?_
    refine (requireInteger_yields hi).bind fun _ _ => (h .operand _ (.expression hvalue)).bind fun v hv => ?_
    refine requireIndex_yields.bind fun k _ s hs => ?_
    exact .of_ok rfl ⟨trivial, hs.setItem hv trivial⟩
  · refine (h .operand _ (.expression hvalue)).bind fun v hv s hs => ?_
    exact .of_ok rfl ⟨trivial, hs.setVariable written_stable hv _⟩

theorem access {offset : Node} (hoffset : offset.isPresent = true → offset.IsExpression N) :
    Yields N (access V name offset) Value.IsData := by
  refine Yields.lookupVariable.bind fun found hfound => .ite (fun hpresent => ?_) fun _ => .pure hfound
  refine requireList_yields.bind fun id _ => ?_
  refine (h .operand _ (.expression (hoffset hpresent))).bind fun i hi => ?_
  refine (requireInteger_yields hi).bind fun _ _ => requireIndex_yields.bind fun k _ => ?_
  exact .get_bind fun _ hs => Spares.part.mono fun v hv => hs.items id v (Array.mem_of_getElem? hv)

theorem operation {op : Operator} {level : Level} {left right : Node} (hop : op.level? = some level)
    (hleft : left.IsExpression N) (hright : right.IsExpression N) :
    Yields N (operation V op left right) Value.IsData := by
  have hdecide : Yields N (do return Value.boolean (← requireBoolean (← V right))) Value.IsData :=
    (h .operand _ (.expression hright)).bind fun b hb =>
      (requireBoolean_yields hb).bind fun _ _ => .pure rfl
  refine (h .operand _ (.expression hleft)).bind fun l hl => ?_
  split
  · exact (requireBoolean_yields hl).bind fun _ _ => .ite (fun _ => hdecide) fun _ => .pure rfl
  · exact (requireBoolean_yields hl).bind fun _ _ => .ite (fun _ => .pure rfl) fun _ => hdecide
  · exact (h .operand _ (.expression hright)).bind fun r hr => operate_yields hop hl hr

end Serves

/-! ## Steps -/

/-- **One step** of a node inside a program gives rise to no defensive fault. -/
theorem step_yields (h : Serves N V) (rounds : Nat) {role : Role} (hn : node.Plays N role) :
    Yields N (step V rounds node) role.Gives := by
  have habsent (hpresent : Node.missing.isPresent = true) : Node.missing.IsExpression N := by
    cases hpresent
  cases hn with
  | expression he =>
    cases he with
    | literal hv => exact .pure hv.isData
    | group he => exact h .operand _ (.expression he)
    | binary hop hleft _ hright _ => exact h.operation hop hleft hright
    | reference => exact h.access habsent
    | item _ ho => exact h.access fun _ => ho
    | call _ harguments => exact h.callWith harguments
  | list helements =>
    refine (h.values fun a ha => .expression (helements a ha)).bind fun vs ⟨_, hvs⟩ s hs => ?_
    refine .of_ok rfl ⟨trivial, ?_⟩
    exact hs.newList written_stable (fun v hv => hvs v (List.mem_toArray.mp hv)) trivial
  | statement hs =>
    cases hs with
    | expressionStatement he =>
      exact (h .operand _ (.expression he)).bind fun _ _ => .pure (.inl rfl)
    | declaration _ _ hv => exact (h.declare hv.plays).bind fun _ _ => .pure (.inl rfl)
    | assignment hreceiver hv =>
      cases hreceiver with
      | reference => exact (h.assign habsent hv).bind fun _ _ => .pure (.inl rfl)
      | item _ ho => exact (h.assign (fun _ => ho) hv).bind fun _ _ => .pure (.inl rfl)
      | _ => exact .raise id
    | conditional hc hss hts => exact h.branch hc hss hts
    | switch arms hc hvalues harms hlast =>
      refine (h .operand _ (.expression hc)).bind fun v hv => ?_
      exact h.choose hv (fun a ha => ⟨hvalues a ha, harms a ha⟩) hlast
    | whileLoop hc hss => exact h.repeatWhile hc hss
    | returning he =>
      exact (h .operand _ (.expression he)).bind fun v hv => .pure (.inr ⟨v, rfl, hv⟩)
  | case hss => exact (h.block hss).inChild
  | global hg =>
    obtain ⟨name, typeName, mutable, value, b, p, rfl, hv⟩ := hg.exists_eq
    exact (h.declare hv).bind fun _ _ => .pure trivial
  | function hf =>
    cases hf with
    | function _ _ _ _ hss => exact (declareFunction_yields hss).bind fun _ _ => .pure trivial

theorem runProgram_yields (h : Serves N V) {gs fs : List Node} (hgs : ∀ g ∈ gs, g.IsGlobal N)
    (hfs : ∀ f ∈ fs, f.IsFunction N) : Yields N (runProgram V gs fs) Value.IsData := by
  refine (h.values fun g hg => .global (hgs g hg)).bind fun _ _ => ?_
  refine (h.values fun f hf => .function (hfs f hf)).bind fun _ _ => ?_
  refine Yields.lookupFunction.bind fun found ⟨hruns, harity⟩ => ?_
  exact h.invoke hruns harity.symm (List.forall_mem_nil _)

end

/-- **No node inside a program** gives rise to a defensive fault, however deep its evaluation is. -/
theorem visit_serves (depth : Nat) : Serves N (visit depth) := by
  induction depth with
  | zero => exact fun _ _ _ _ _ => .throw trivial
  | succ depth ih => exact fun role n hn => (step_yields ih depth hn).attached

theorem visit_program_yields {d : Node} (hd : d.IsProgram N) (depth : Nat) :
    Yields N (visit depth d) Value.IsData := by
  obtain ⟨hgs, hfs⟩ := hd
  cases depth with
  | zero => exact fun _ _ => .throw trivial
  | succ depth => exact (runProgram_yields (visit_serves depth) hgs hfs).attached

/-- A run starts with `print` and nothing else. -/
theorem written_holds_start : (written N).Holds (start {} none) := by
  refine .start written_stable (fun f hf => ⟨?_, fun env names ss p hcode => ?_⟩) trivial
  · rw [hf]
    rfl
  · cases hf.symm.trans hcode

end Run

/-- **The run of a program never ends with a defensive fault**, whatever the analysis has said. -/
theorem Node.IsProgram.run_avoids {N : String → Prop} {d : Node} {depth : Nat} {e : Stop}
    {s : State Body String} (hd : d.IsProgram N) (he : d.run depth = .error e s) :
    e.Avoids Fault.DefendsRun := by
  have hresult := (Run.visit_program_yields hd depth _ Run.written_holds_start).2
  change Run.visit depth d (Run.start {} none) = .error e s at he
  rw [he] at hresult
  exact hresult

namespace Node

/-- **Defensive faults do not occur in what was read.** The analysis of a text that was read never finds a
node of no kind, an unknown operator or literal, an empty list, a global or a parameter without a type, a
switch without a default at its end or with one elsewhere, or a return outside of functions. The run,
whatever the analysis has written into the slots of the tree, never finds a node of no kind, an unknown
operator, a value that does not belong to the language, or a function that has no body or is called with
another number of arguments. -/
theorem parse?_avoids_defensive {text : String} {t : Node} (h : parse? text = some t) {d : Node}
    (hd : d.skeleton = t.skeleton) :
    (∀ e, d.analyze = .error (.fault e) → ¬ e.fault.DefendsAnalysis) ∧
      ∀ depth e s, d.run depth = .error (.fault e) s → ¬ e.fault.DefendsRun := by
  have hprogram := (isProgram_of_parse? h).of_skeleton_eq hd
  exact ⟨fun e he => hprogram.analyze_avoids he, fun depth e s he => hprogram.run_avoids he⟩

/-- A sum of a number and a truth value. -/
def mixedSum : String := "FUN main(): Integer DO RETURN 1 + TRUE; END"

/-- The analysis and the run of the example both fail because of the operands. -/
def failsAtOperands (t : Node) : Bool :=
  (match t.analyze with
    | .error (.fault e) => e.fault = .unfitOperands (some .integer) (some .boolean) "+"
    | _ => false) &&
  match t.run 9 with
  | .error (.fault e) _ => e.fault = .unfitOperands (some .integer) (some .boolean) "+"
  | _ => false

theorem parse?_avoids_defensive_mixedSum :
    ∃ t, parse? mixedSum = some t ∧ failsAtOperands t = true ∧
      (∀ e, t.analyze = .error (.fault e) → ¬ e.fault.DefendsAnalysis) ∧
      ∀ depth e s, t.run depth = .error (.fault e) s → ¬ e.fault.DefendsRun := by
  have hparsed : (parse? mixedSum).any failsAtOperands = true := by decide +kernel
  obtain ⟨t, ht, hfails⟩ := (Option.any_eq_true _ _).mp hparsed
  exact ⟨t, ht, hfails, parse?_avoids_defensive ht rfl⟩

end Node

end PlcLang
