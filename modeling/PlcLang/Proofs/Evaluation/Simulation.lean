import Mathlib.Data.List.Forall2
import PlcLang.Proofs.Evaluation.Paired

/-!
# Runs of trees that correspond to each other

The evaluations of two trees are in step if nodes that correspond to each other are of one kind and have
parts that do, and if blocks that correspond to each other have the same statements up to the first
`RETURN`. What stands behind that does not matter.

* `Run.Pairing.Parts`: nodes of one kind with corresponding parts.
* `Run.Pairing.Lawful`: the laws of pairings.
* `Run.Simulates`: evaluations of nodes that are in step, with one lemma for each part of a step.
* `Run.visit_simulates`: the evaluation of nodes in any depth.
-/

namespace PlcLang

/-- The node is a `RETURN`. -/
def Node.isReturning : Node → Bool
  | .returning .. => true
  | _ => false

namespace Run

open Walk

/-! ## Lawful pairings -/

namespace Pairing

variable (P : Pairing)

/-- The nodes are of one kind and have parts that correspond to each other. -/
inductive Parts : Node → Node → Prop
  | missing : Parts .missing .missing
  | bare {k} : Parts (.bare k) (.bare k)
  | literal {v t p} : Parts (.literal v t p) (.literal v t p)
  | group {e e' t p} : P.node e e' → Parts (.group e t p) (.group e' t p)
  | binary {op l l' r r' t p} : P.node l l' → P.node r r' → Parts (.binary op l r t p) (.binary op l' r' t p)
  | access {name o o' t b p} : P.node o o' → Parts (.access name o t b p) (.access name o' t b p)
  | call {name es es' t b p} : List.Forall₂ P.node es es' → Parts (.call name es t b p) (.call name es' t b p)
  | listLiteral {es es' t p} : List.Forall₂ P.node es es' → Parts (.listLiteral es t p) (.listLiteral es' t p)
  | expressionStatement {e e' p} : P.node e e' → Parts (.expressionStatement e p) (.expressionStatement e' p)
  | declaration {name t v v' b p} : P.node v v' → Parts (.declaration name t v b p) (.declaration name t v' b p)
  | assignment {r r' v v' p} : P.node r r' → P.node v v' → Parts (.assignment r v p) (.assignment r' v' p)
  | conditional {c c' ts ts' es es' p} : P.node c c' → P.block ts ts' → P.block es es' →
      Parts (.conditional c ts es p) (.conditional c' ts' es' p)
  | case {v v' ss ss' p} : P.node v v' → P.block ss ss' → Parts (.case v ss p) (.case v' ss' p)
  | switch {c c' cs cs' p} : P.node c c' → List.Forall₂ P.node cs cs' →
      Parts (.switch c cs p) (.switch c' cs' p)
  | whileLoop {c c' ss ss' p} : P.node c c' → P.block ss ss' → Parts (.whileLoop c ss p) (.whileLoop c' ss' p)
  | returning {e e' p} : P.node e e' → Parts (.returning e p) (.returning e' p)
  | global {name t mutable v v' b p} : P.node v v' →
      Parts (.global name t mutable v b p) (.global name t mutable v' b p)
  | function {name names types t ss ss' b p} : P.block ss ss' →
      Parts (.function name names types t ss b p) (.function name names types t ss' b p)
  | source {gs gs' fs fs'} : List.Forall₂ P.node gs gs' → List.Forall₂ P.node fs fs' →
      Parts (.source gs fs) (.source gs' fs')

/-- The laws of pairings. -/
structure Lawful : Prop where
  /-- Every node corresponds to itself. -/
  refl (n : Node) : P.node n n
  /-- Nodes that correspond to each other have parts that do. -/
  parts {n m : Node} : P.node n m → P.Parts n m
  /-- Blocks that correspond to each other have corresponding statements up to the first `RETURN`. -/
  block {ns ms : List Node} : P.block ns ms → (ns = [] ∧ ms = []) ∨ ∃ n ns' m ms', ns = n :: ns' ∧
    ms = m :: ms' ∧ P.node n m ∧ (n.isReturning = false → P.block ns' ms')

variable {P} {n m : Node}

/-- A node has itself for a counterpart if its parts have. -/
theorem Parts.refl (hnode : ∀ n, P.node n n) (hblock : ∀ ns, P.block ns ns) (n : Node) : P.Parts n n := by
  have hnodes (ns : List Node) : List.Forall₂ P.node ns ns := List.forall₂_same.mpr fun n _ => hnode n
  cases n <;> constructor <;> first | apply hnode | apply hblock | apply hnodes

theorem Parts.place_eq (h : P.Parts n m) : n.place = m.place := by cases h <;> rfl

theorem Parts.isPresent_eq (h : P.Parts n m) : n.isPresent = m.isPresent := by cases h <;> rfl

theorem Parts.caseValue? (h : P.Parts n m) : Option.Rel P.node n.caseValue? m.caseValue? := by
  cases h with
  | case h | declaration h | assignment _ h | returning h | global h => exact .some h
  | _ => exact .none

end Pairing

/-! ## Operations in step -/

namespace InStep

variable {P : Pairing} {op : Operator} {l r v : Value}

section

variable (hP : ∀ n, P.node n n)

include hP

theorem typeOf : InStep P Eq (typeOf v) (typeOf v) := .reading hP fun h => Store.typeOf_congr h v

theorem textOf : InStep P Eq (textOf v) (textOf v) := .reading hP fun h => Store.text_congr h v

theorem equal : InStep P Eq (equal l r) (equal l r) := .reading hP fun h => Store.equal_congr h l r

theorem requireBoolean : InStep P Eq (requireBoolean v) (requireBoolean v) := by
  unfold Run.requireBoolean
  split
  · exact .pure rfl
  · exact (typeOf hP).bind_eq fun _ => .raise

theorem requireInteger : InStep P Eq (requireInteger v) (requireInteger v) := by
  unfold Run.requireInteger
  split
  · exact .pure rfl
  · exact (typeOf hP).bind_eq fun _ => .raise

theorem compare : InStep P Eq (compare op l r) (compare op l r) := by
  refine (typeOf hP).bind_eq fun _ => (typeOf hP).bind_eq fun _ => ?_
  split
  · exact InStep.require.bind_eq fun _ => .ite (.throw .unordered) (.pure rfl)
  · exact .raise

theorem arithmetic : InStep P Eq (arithmetic op l r) (arithmetic op l r) := by
  refine (typeOf hP).bind_eq fun _ => (typeOf hP).bind_eq fun _ => ?_
  split
  · exact InStep.lift.bind_eq fun _ => .pure rfl
  · exact InStep.lift.bind_eq fun _ => .pure rfl
  · exact .raise

theorem plus : InStep P Eq (plus l r) (plus l r) := by
  refine (typeOf hP).bind_eq fun _ => (typeOf hP).bind_eq fun _ => .ite ?_ (arithmetic hP)
  exact (textOf hP).bind_eq fun _ => (textOf hP).bind_eq fun _ => .pure rfl

theorem power : InStep P Eq (power l r) (power l r) := by
  refine (requireInteger hP).bind_eq fun _ => ?_
  split
  · exact InStep.lift.bind_eq fun _ => .pure rfl
  · exact InStep.lift.bind_eq fun _ => .pure rfl
  · exact (typeOf hP).bind_eq fun _ => .raise

/-- Operations depend on the values and on the lists only. -/
theorem operate : InStep P Eq (operate op l r) (operate op l r) := by
  cases op with
  | and | or =>
    exact (requireBoolean hP).bind_eq fun _ => (requireBoolean hP).bind_eq fun _ => .pure rfl
  | equal | unequal => exact (equal hP).bind_eq fun _ => .pure rfl
  | less | greater => exact compare hP
  | plus => exact plus hP
  | minus | times | divide => exact arithmetic hP
  | power => exact power hP
  | other => exact .raise

end

theorem requireList {name : Name} : InStep P Eq (requireList name v) (requireList name v) := by
  unfold Run.requireList
  split
  · exact .pure rfl
  · exact .raise

theorem requireIndex {id : ListId} {i : Int} : InStep P Eq (requireIndex id i) (requireIndex id i) := by
  refine InStep.get.bind fun s t hs => ?_
  unfold Store.list
  rw [hs.lists_eq]
  exact .ite (.pure rfl) .raise

theorem printLine {text : String} : InStep P Eq (printLine text) (printLine text) :=
  fun s t hs => ⟨rfl, by rw [hs.register_eq, hs.env_eq]; exact hs.of_store⟩

theorem newList {items : List Value} : InStep P Eq (newList items) (newList items) := by
  intro s t hs
  refine ⟨congrArg (fun lists : Array (Array Value) => Value.list lists.size) hs.lists_eq, ?_⟩
  exact ⟨hs.env_eq, hs.register_eq, congrArg (·.push items.toArray) hs.lists_eq, hs.size_eq,
    hs.variables_eq, hs.functions⟩

theorem setItem {id : ListId} {index : Nat} :
    InStep P Eq (modifyStore (·.setItem id index v)) (modifyStore (·.setItem id index v)) :=
  fun _ _ hs => ⟨rfl, hs.env_eq, hs.register_eq, congrArg (·.modify id (·.setIfInBounds index v)) hs.lists_eq,
    hs.size_eq, hs.variables_eq, hs.functions⟩

theorem setVariable {ref : VariableRef} :
    InStep P Eq (modifyStore (·.setVariable ref v)) (modifyStore (·.setVariable ref v)) :=
  fun _ _ hs => ⟨rfl, hs.setVariable ref v⟩

end InStep

/-! ## Parts of a step -/

/-- Both evaluations of nodes are in step, and a `RETURN` returns. -/
def Simulates (P : Pairing) (V W : Node → Run Value) : Prop :=
  ∀ n m, P.node n m →
    InStep P (fun v w => v = w ∧ (n.isReturning = true → ∃ u, v = .returned u)) (V n) (W m)

namespace Simulates

variable {P : Pairing} {V W : Node → Run Value} {n m : Node} {ns ms : List Node} {name : Name}
  {place : Place} {v : Value}

theorem inStep (h : Simulates P V W) (hn : P.node n m) : InStep P Eq (V n) (W m) :=
  (h n m hn).mono fun _ _ hv => hv.1

theorem values (h : Simulates P V W) (hns : List.Forall₂ P.node ns ms) :
    InStep P Eq (values V ns) (values W ms) := by
  induction hns with
  | nil => exact .pure rfl
  | cons hn _ ih => exact (h.inStep hn).bind_eq fun _ => ih.bind_eq fun _ => .pure rfl

section

variable (hP : P.Lawful)

include hP

/-- Whatever stands behind a `RETURN` is not evaluated. -/
theorem block (h : Simulates P V W) (hns : P.block ns ms) : InStep P Eq (block V ns) (block W ms) := by
  induction ns generalizing ms with
  | nil =>
    obtain ⟨-, rfl⟩ | ⟨n, ns', m, ms', hcons, -⟩ := hP.block hns
    · exact .pure rfl
    · cases hcons
  | cons n ns ih =>
    obtain ⟨hnil, -⟩ | ⟨n, ns', m, ms', hcons, rfl, hn, hrest⟩ := hP.block hns
    · cases hnil
    · cases hcons
      refine (h n m hn).bind ?_
      rintro v _ ⟨rfl, hreturns⟩
      have hnext (hv : ∀ u, v ≠ .returned u) : InStep P Eq (Run.block V ns) (Run.block W ms') := by
        refine ih (hrest ?_)
        rw [← Bool.not_eq_true]
        exact fun hn => (hreturns hn).elim hv
      cases v with
      | returned u => exact .pure rfl
      | _ => exact hnext nofun

theorem inBlock (h : Simulates P V W) (hns : P.block ns ms) :
    InStep P Eq (inChild (Run.block V ns)) (inChild (Run.block W ms)) := (h.block hP hns).inChild

/-! ### Calls -/

omit hP in
theorem bindParameters {names : List Name} {arguments : List Value} :
    InStep P Eq (bindParameters place names arguments) (bindParameters place names arguments) := by
  induction names generalizing arguments with
  | nil => exact .pure rfl
  | cons name names ih =>
    cases arguments with
    | nil => exact .pure rfl
    | cons v vs => exact InStep.defineVariable.bind_eq fun _ => ih

omit hP in
theorem bodyFor {f g : Function Body} (hf : P.Functions f g) (received : Nat) :
    InStep P P.Bodies (lift (f.bodyFor received)) (lift (g.bodyFor received)) := by
  unfold Function.bodyFor
  rw [hf.name_eq, hf.arity_eq]
  rcases none_or_some hf.body with ⟨hnone, hnone'⟩ | ⟨b, b', hb, hb', hbodies⟩
  · rw [hnone, hnone']
    exact .raise
  · rw [hb, hb']
    dsimp only
    split
    · exact .pure hbodies
    · exact .raise

theorem invoke (h : Simulates P V W) {f g : Function Body} (hf : P.Functions f g) {arguments : List Value} :
    InStep P Eq (invoke V f arguments) (invoke W g arguments) := by
  refine (bodyFor hf _).bind fun b b' hbodies => ?_
  cases hbodies with
  | print =>
    exact (InStep.textOf hP.refl).bind_eq fun _ => InStep.printLine.bind_eq fun _ => .pure rfl
  | code hss =>
    refine InStep.inChildOf (bindParameters.bind_eq fun _ => (h.block hP hss).bind_eq fun v => ?_) _
    cases v <;> exact .pure rfl

theorem callWith (h : Simulates P V W) (hns : List.Forall₂ P.node ns ms) :
    InStep P Eq (callWith V name ns) (callWith W name ms) := by
  unfold Run.callWith
  rw [hns.length_eq]
  exact InStep.lookupFunction.bind fun _ _ hf => (h.values hns).bind_eq fun _ => h.invoke hP hf

theorem runProgram (h : Simulates P V W) {gs gs' fs fs' : List Node} (hgs : List.Forall₂ P.node gs gs')
    (hfs : List.Forall₂ P.node fs fs') : InStep P Eq (runProgram V gs fs) (runProgram W gs' fs') :=
  (h.values hgs).bind_eq fun _ => (h.values hfs).bind_eq fun _ =>
    InStep.lookupFunction.bind fun _ _ hf => h.invoke hP hf

/-! ### Statements -/

theorem choose (h : Simulates P V W) (hns : List.Forall₂ P.node ns ms) {d d' : Option Node}
    (hd : Option.Rel P.node d d') : InStep P Eq (choose V v d ns) (choose W v d' ms) := by
  induction hns generalizing d d' with
  | nil =>
    cases hd with
    | some hd => exact h.inStep hd
    | none => exact .pure rfl
  | cons hn _ ih =>
    refine (InStep.part (hP.parts hn).caseValue?).bind fun u u' hu => ?_
    rw [(hP.parts hu).isPresent_eq]
    refine .ite ((h.inStep hu).bind_eq fun _ => ?_) (ih (.some hn))
    exact (InStep.equal hP.refl).bind_eq fun _ => .ite (h.inStep hn) (ih hd)

theorem repeatWhile (h : Simulates P V W) (hn : P.node n m) (hns : P.block ns ms) (rounds : Nat) :
    InStep P Eq (repeatWhile V n ns rounds) (repeatWhile W m ms rounds) := by
  induction rounds with
  | zero => exact .throw .unfinished
  | succ rounds ih =>
    refine (h.inStep hn).bind_eq fun _ => (InStep.requireBoolean hP.refl).bind_eq fun _ =>
      .ite ((h.inBlock hP hns).bind_eq fun v => ?_) (.pure rfl)
    cases v with
    | returned => exact .pure rfl
    | _ => exact ih

theorem branch (h : Simulates P V W) (hn : P.node n m) (hns : P.block ns ms) {es es' : List Node}
    (hes : P.block es es') : InStep P Eq (branch V n ns es) (branch W m ms es') :=
  (h.inStep hn).bind_eq fun _ => (InStep.requireBoolean hP.refl).bind_eq fun _ =>
    .ite (h.inBlock hP hns) (h.inBlock hP hes)

theorem declare (h : Simulates P V W) {mutable : Option Bool} (hn : P.node n m) :
    InStep P Eq (declare V name mutable n place) (declare W name mutable m place) := by
  have hvalue : InStep P Eq (valueOf V n) (valueOf W m) := by
    unfold valueOf
    rw [(hP.parts hn).isPresent_eq]
    exact .ite (h.inStep hn) (.pure rfl)
  exact hvalue.bind_eq fun _ => InStep.defineVariable.bind_eq fun _ => .pure rfl

omit hP in
theorem declareFunction {names : List Name} (hns : P.block ns ms) :
    InStep P Eq (declareFunction name names ns place) (declareFunction name names ms place) := by
  refine InStep.get.bind fun s t hs => ?_
  rw [hs.env_eq]
  refine InStep.bind_eq (InStep.defineFunction ?_) fun _ => .pure rfl
  exact ⟨rfl, rfl, rfl, .some (.code hns), rfl⟩

theorem assign (h : Simulates P V W) {o o' : Node} (ho : P.node o o') (hn : P.node n m) :
    InStep P Eq (assign V name o n) (assign W name o' m) := by
  refine InStep.lookupVariable.bind_eq fun found => InStep.require.bind_eq fun _ => ?_
  rw [(hP.parts ho).isPresent_eq]
  refine .ite ?_ ((h.inStep hn).bind_eq fun _ => .setVariable)
  refine InStep.requireList.bind_eq fun _ => (h.inStep ho).bind_eq fun _ => ?_
  refine (InStep.requireInteger hP.refl).bind_eq fun _ => (h.inStep hn).bind_eq fun _ => ?_
  exact InStep.requireIndex.bind_eq fun _ => .setItem

/-! ### Expressions -/

theorem access (h : Simulates P V W) (hn : P.node n m) : InStep P Eq (access V name n) (access W name m) := by
  refine InStep.lookupVariable.bind_eq fun found => ?_
  dsimp only
  rw [(hP.parts hn).isPresent_eq]
  refine .ite ?_ (.pure rfl)
  refine InStep.requireList.bind_eq fun _ => (h.inStep hn).bind_eq fun _ => ?_
  refine (InStep.requireInteger hP.refl).bind_eq fun _ => InStep.requireIndex.bind_eq fun _ => ?_
  refine InStep.get.bind fun s t hs => ?_
  unfold Store.list
  rw [hs.lists_eq]
  exact .part_eq

theorem operation (h : Simulates P V W) {op : Operator} {l l' r r' : Node} (hl : P.node l l')
    (hr : P.node r r') : InStep P Eq (operation V op l r) (operation W op l' r') := by
  have hright : InStep P Eq (do return Value.boolean (← requireBoolean (← V r)))
      (do return Value.boolean (← requireBoolean (← W r'))) :=
    (h.inStep hr).bind_eq fun _ => (InStep.requireBoolean hP.refl).bind_eq fun _ => .pure rfl
  refine (h.inStep hl).bind_eq fun v => ?_
  split
  · exact (InStep.requireBoolean hP.refl).bind_eq fun _ => .ite hright (.pure rfl)
  · exact (InStep.requireBoolean hP.refl).bind_eq fun _ => .ite (.pure rfl) hright
  · exact (h.inStep hr).bind_eq fun _ => .operate hP.refl

/-! ### Steps -/

/-- **One step of nodes that correspond to each other is in step.** -/
theorem step (h : Simulates P V W) (rounds : Nat) : Simulates P (step V rounds) (step W rounds) := by
  intro n m hnode
  have hother {x y : Run Value} (hn : n.isReturning = false) (hxy : InStep P Eq x y) :
      InStep P (fun v w => v = w ∧ (n.isReturning = true → ∃ u, v = .returned u)) x y :=
    hxy.mono fun v w hv => ⟨hv, fun hreturning => nomatch hn.symm.trans hreturning⟩
  cases hP.parts hnode with
  | returning he =>
    refine (h.inStep he).bind ?_
    rintro v _ rfl
    exact .pure ⟨rfl, fun _ => ⟨v, rfl⟩⟩
  | missing | bare => exact hother rfl .raise
  | literal => exact hother rfl (.pure rfl)
  | group he => exact hother rfl (h.inStep he)
  | binary hl hr => exact hother rfl (h.operation hP hl hr)
  | access ho => exact hother rfl (h.access hP ho)
  | call hes => exact hother rfl (h.callWith hP hes)
  | listLiteral hes => exact hother rfl ((h.values hes).bind_eq fun _ => .newList)
  | expressionStatement he => exact hother rfl ((h.inStep he).bind_eq fun _ => .pure rfl)
  | declaration hv => exact hother rfl ((h.declare hP hv).bind_eq fun _ => .pure rfl)
  | assignment hr hv =>
    refine hother rfl ?_
    cases hP.parts hr with
    | access ho => exact (h.assign hP ho hv).bind_eq fun _ => .pure rfl
    | _ => exact .raise
  | conditional hc hts hes => exact hother rfl (h.branch hP hc hts hes)
  | case _ hss => exact hother rfl (h.inBlock hP hss)
  | switch hc hcs => exact hother rfl ((h.inStep hc).bind_eq fun _ => h.choose hP hcs .none)
  | whileLoop hc hss => exact hother rfl (h.repeatWhile hP hc hss rounds)
  | global hv => exact hother rfl ((h.declare hP hv).bind_eq fun _ => .pure rfl)
  | function hss => exact hother rfl ((declareFunction hss).bind_eq fun _ => .pure rfl)
  | source hgs hfs => exact hother rfl (h.runProgram hP hgs hfs)

end

end Simulates

/-- **The evaluations of nodes that correspond to each other are in step**, in any depth. -/
theorem visit_simulates {P : Pairing} (hP : P.Lawful) (depth : Nat) : Simulates P (visit depth) (visit depth) := by
  induction depth with
  | zero => exact fun _ _ _ => .throw .unfinished
  | succ depth ih =>
    intro n m hnode
    exact (ih.step hP depth n m hnode).attached hnode (hP.parts hnode).place_eq (hP.parts hnode).isPresent_eq

end Run

end PlcLang
