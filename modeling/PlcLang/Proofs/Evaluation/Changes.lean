import Mathlib.Logic.Relation
import PlcLang.Proofs.Evaluation.Upheld

/-!
# The changes that a run makes

A run is a sequence of small changes, whether it succeeds or ends early. Among them only one replaces
the value of a variable, and it asks for a variable that may be assigned to. So what every change keeps
is kept by every run, and holds whenever a node is evaluated.

* `State.Change`: one change; `State.Becomes`: any number of them.
* `Run.Tracks`: walks that make changes only, with one rule for every way to build a walk.
* `Run.visit_becomes`, `Run.passes_between`: the evaluation of a node in any depth.
-/

namespace PlcLang

open Relation

/-! ## Changes -/

namespace State

/-- The changes of the state of a run. -/
inductive Change : State Body String → State Body String → Prop
  /-- A scope is opened. -/
  | opened {s} (outer : Env) : Change s (s.openedIn outer)
  /-- A scope is left. -/
  | left {s} (env : Env) : Change s (s.leaving env)
  /-- Text is printed. -/
  | printed {s} (text : String) : Change s ⟨s.store, s.env, s.register ++ text ++ "\n"⟩
  /-- The active scope gains a variable whose name is new in it. -/
  | boundVariable {s v} : (s.store.scope s.env.scope).variableNamed? v.name = none →
      Change s (s.withVariable v)
  /-- The active scope gains a function whose name and arity are new in it. -/
  | boundFunction {s f} : (s.store.scope s.env.scope).functionNamed? f.name f.arity = none →
      Change s (s.withFunction f)
  /-- A variable that may be assigned to gets another value. -/
  | assigned {s ref v} (value : Value) : s.store.variableAt? ref = some v → v.isMutable = true →
      Change s { s with store := s.store.setVariable ref value }
  /-- A list is made. -/
  | madeList {s} (items : Array Value) : Change s { s with store := (s.store.newList items).2 }
  /-- An item of a list is replaced. -/
  | replacedItem {s id index} (value : Value) : index < (s.store.list id).size →
      Change s { s with store := s.store.setItem id index value }

/-- Changes lead from one state to the other. -/
abbrev Becomes : State Body String → State Body String → Prop := ReflTransGen Change

variable {s t : State Body String} {ref : VariableRef} {v : Variable}

/-- A variable stays bound, and it does not become a constant or cease to be one. A constant keeps
what it holds. -/
theorem Change.variableAt? (h : s.Change t) (hv : s.store.variableAt? ref = some v) :
    ∃ w, t.store.variableAt? ref = some w ∧ w.isMutable = v.isMutable ∧
      (v.isMutable = false → w = v) := by
  have hkept (ht : t.store.variableAt? ref = some v) :
      ∃ w, t.store.variableAt? ref = some w ∧ w.isMutable = v.isMutable ∧
        (v.isMutable = false → w = v) := ⟨v, ht, rfl, fun _ => rfl⟩
  cases h with
  | opened outer =>
    apply hkept
    exact (Store.extends_child outer).1.variableAt? hv
  | boundVariable =>
    apply hkept
    exact (extends_withVariable s _).variableAt? hv
  | boundFunction =>
    apply hkept
    exact (extends_withFunction s _).variableAt? hv
  | @assigned ref' u value hu hmutable =>
    show ∃ w, (s.store.setVariable ref' value).variableAt? ref = some w ∧ _
    rw [Store.variableAt?_setVariable, hv]
    by_cases href : ref = ref'
    · -- this one may be assigned to
      subst href
      obtain rfl : v = u := Option.some.inj (hv.symm.trans hu)
      simp [Variable.isMutable, show v.mutable.getD false = true from hmutable]
    · simp [href]
  | left | printed | madeList | replacedItem => exact hkept hv

theorem Becomes.variableAt? (h : s.Becomes t) (hv : s.store.variableAt? ref = some v) :
    ∃ w, t.store.variableAt? ref = some w ∧ w.isMutable = v.isMutable ∧
      (v.isMutable = false → w = v) := by
  induction h with
  | refl => exact ⟨v, hv, rfl, fun _ => rfl⟩
  | tail _ hchange ih =>
    obtain ⟨w, hw, hmutable, heq⟩ := ih
    obtain ⟨w', hw', hmutable', heq'⟩ := hchange.variableAt? hw
    refine ⟨w', hw', hmutable'.trans hmutable, fun hv' => ?_⟩
    rw [heq' (hmutable.trans hv'), heq hv']

end State

namespace Run

open Walk

/-! ## Walks that make changes -/

section

variable {α γ : Type} {s₀ s₁ s₂ : State Body String}

/-- In every state that `s₀` becomes, only changes lead to where the first walk ends, and both walks end
alike if this becomes `s₁`. -/
def Tracks (s₀ s₁ : State Body String) (x y : Run α) : Prop :=
  ∀ s, s₀.Becomes s → s.Becomes (x.after s) ∧ ((x.after s).Becomes s₁ → y s = x s)

namespace Tracks

theorem mono {x y : Run α} (h : Tracks s₀ s₁ x y) (hs : s₀.Becomes s₂) : Tracks s₂ s₁ x y :=
  fun s hs' => h s (hs.trans hs')

theorem of_still {x : Run α} (h : Still x) : Tracks s₀ s₁ x x :=
  fun s _ => ⟨(h s).symm ▸ .refl, fun _ => rfl⟩

theorem of_change {x : Run α} (h : ∀ s, s₀.Becomes s → s.Change (x.after s)) : Tracks s₀ s₁ x x :=
  fun s hs => ⟨.single (h s hs), fun _ => rfl⟩

/-- The second walk starts where the first one has succeeded. -/
theorem bind_of_ok {x y : Run γ} {g k : γ → Run α} (h : Tracks s₀ s₁ x y)
    (hg : ∀ s c t, s₀.Becomes s → x s = .ok c t → s.Becomes t → Tracks t s₁ (g c) (k c)) :
    Tracks s₀ s₁ (x >>= g) (y >>= k) := by
  intro s hs
  obtain ⟨hbecomes, heq⟩ := h s hs
  cases hc : x s with
  | ok c t =>
    rw [after_of_ok hc] at hbecomes heq
    obtain ⟨hbecomes', heq'⟩ := hg s c t hs hc hbecomes t .refl
    rw [after_bind_of_ok hc]
    refine ⟨hbecomes.trans hbecomes', fun hf => ?_⟩
    rw [bind_of_eq_ok hc, bind_of_eq_ok ((heq (hbecomes'.trans hf)).trans hc), heq' hf]
  | error e t =>
    rw [after_of_error hc] at hbecomes heq
    rw [after_bind_of_error hc]
    refine ⟨hbecomes, fun hf => ?_⟩
    rw [bind_of_eq_error hc, bind_of_eq_error ((heq hf).trans hc)]

theorem bind {x y : Run γ} {g k : γ → Run α} (h : Tracks s₀ s₁ x y)
    (hg : ∀ c, Tracks s₀ s₁ (g c) (k c)) : Tracks s₀ s₁ (x >>= g) (y >>= k) :=
  h.bind_of_ok fun _ c _ hs _ ht => (hg c).mono (hs.trans ht)

theorem still_bind {x : Run γ} {g k : γ → Run α} (h : Still x) (hg : ∀ c, Tracks s₀ s₁ (g c) (k c)) :
    Tracks s₀ s₁ (x >>= g) (x >>= k) := (of_still h).bind hg

theorem ite {c : Prop} [Decidable c] {x y x' y' : Run α} (h : Tracks s₀ s₁ x y)
    (k : Tracks s₀ s₁ x' y') : Tracks s₀ s₁ (if c then x else x') (if c then y else y') := by
  split
  · exact h
  · exact k

theorem attached {x y : Run α} (h : Tracks s₀ s₁ x y) (node : Node) :
    Tracks s₀ s₁ (attached node x) (attached node y) := by
  intro s hs
  rw [after_attached]
  refine ⟨(h s hs).1, fun hf => ?_⟩
  unfold Walk.attached
  rw [(h s hs).2 hf]

theorem inChildOf {x y : Run α} (h : Tracks s₀ s₁ x y) (outer : Env) :
    Tracks s₀ s₁ (inChildOf outer x) (inChildOf outer y) := by
  intro s hs
  obtain ⟨hbecomes, heq⟩ := h (s.openedIn outer) (hs.tail (.opened outer))
  rw [after_inChildOf]
  refine ⟨(ReflTransGen.head (.opened outer) hbecomes).tail (.left s.env), fun hf => ?_⟩
  replace heq := heq (.head (.left s.env) hf)
  unfold State.openedIn at heq
  unfold Walk.inChildOf
  dsimp only
  rw [heq]

theorem inChild {x y : Run α} (h : Tracks s₀ s₁ x y) : Tracks s₀ s₁ (inChild x) (inChild y) :=
  fun s hs => h.inChildOf s.env s hs

theorem defineVariable {v : Variable} :
    Tracks s₀ s₁ (defineVariable v : Run VariableRef) (defineVariable v) := by
  intro s _
  refine ⟨?_, fun _ => rfl⟩
  cases hname : (s.store.scope s.env.scope).variableNamed? v.name with
  | none =>
    rw [after_of_ok (defineVariable_eq_ok.mpr ⟨hname, rfl, rfl⟩)]
    exact .single (.boundVariable hname)
  | some u => rw [after_of_error (defineVariable_of_some hname)]

theorem defineFunction {f : Function Body} :
    Tracks s₀ s₁ (defineFunction f : Run FunctionRef) (defineFunction f) := by
  intro s _
  refine ⟨?_, fun _ => rfl⟩
  cases hname : (s.store.scope s.env.scope).functionNamed? f.name f.arity with
  | none =>
    rw [after_of_ok (defineFunction_eq_ok.mpr ⟨hname, rfl, rfl⟩)]
    exact .single (.boundFunction hname)
  | some g => rw [after_of_error (defineFunction_of_some hname)]

end Tracks

end

/-! ## Parts -/

/-- This holds of two ways to evaluate nodes. -/
def TracksAll (s₀ s₁ : State Body String) (V G : Node → Run Value) : Prop :=
  ∀ n, Tracks s₀ s₁ (V n) (G n)

section

variable {s₀ s₁ : State Body String} {V G : Node → Run Value} {name : Name} {place : Place}
  {node : Node} {nodes : List Node} {v : Value}

theorem TracksAll.block (h : TracksAll s₀ s₁ V G) : Tracks s₀ s₁ (block V nodes) (block G nodes) := by
  induction nodes with
  | nil => exact .of_still .pure
  | cons n ns ih =>
    refine (h n).bind fun v => ?_
    cases v with
    | returned r => exact .of_still .pure
    | _ => exact ih

theorem TracksAll.values (h : TracksAll s₀ s₁ V G) :
    Tracks s₀ s₁ (values V nodes) (values G nodes) := by
  induction nodes with
  | nil => exact .of_still .pure
  | cons n ns ih => exact (h n).bind fun _ => ih.bind fun _ => .of_still .pure

/-- If all nodes have values, there are as many. -/
theorem length_of_values {s t : State Body String} {vs : List Value} (h : Run.values V nodes s = .ok vs t) :
    vs.length = nodes.length := by
  induction nodes generalizing s vs with
  | nil =>
    obtain ⟨rfl, -⟩ := pure_eq_ok.mp h
    rfl
  | cons n ns ih =>
    obtain ⟨v, _, -, h⟩ := bind_eq_ok.mp h
    obtain ⟨ws, _, hws, h⟩ := bind_eq_ok.mp h
    obtain ⟨rfl, rfl⟩ := pure_eq_ok.mp h
    rw [List.length_cons, List.length_cons, ih hws]

theorem TracksAll.declare (h : TracksAll s₀ s₁ V G) {mutable : Option Bool} :
    Tracks s₀ s₁ (declare V name mutable node place) (declare G name mutable node place) := by
  have hvalue : Tracks s₀ s₁ (valueOf V node) (valueOf G node) := .ite (h node) (.of_still .pure)
  exact hvalue.bind fun _ => Tracks.defineVariable.bind fun _ => .of_still .pure

/-! ## Calls -/

theorem bindParameters_tracks {names : List Name} {arguments : List Value} :
    Tracks s₀ s₁ (bindParameters place names arguments) (bindParameters place names arguments) := by
  induction names generalizing arguments with
  | nil => exact .of_still .pure
  | cons name names ih =>
    cases arguments with
    | nil => exact .of_still .pure
    | cons v vs => exact Tracks.defineVariable.bind fun _ => ih

theorem TracksAll.invoke (h : TracksAll s₀ s₁ V G) {f : Function Body} {arguments : List Value} :
    Tracks s₀ s₁ (invoke V f arguments) (invoke G f arguments) := by
  refine .still_bind .lift fun body => ?_
  cases body with
  | print =>
    refine .still_bind textOf_still fun text => ?_
    exact (Tracks.of_change fun s _ => .printed text).bind fun _ => .of_still .pure
  | code env parameters statements place =>
    refine .inChildOf (bindParameters_tracks.bind fun _ => h.block.bind fun v => ?_) env
    cases v <;> exact .of_still .pure

theorem TracksAll.callWith (h : TracksAll s₀ s₁ V G) :
    Tracks s₀ s₁ (callWith V name nodes) (callWith G name nodes) :=
  .still_bind .lookupFunction fun _ => h.values.bind fun _ => h.invoke

/-! ## Statements -/

theorem TracksAll.choose (h : TracksAll s₀ s₁ V G) {default : Option Node} :
    Tracks s₀ s₁ (choose V v default nodes) (choose G v default nodes) := by
  induction nodes generalizing default with
  | nil =>
    cases default with
    | some n => exact h n
    | none => exact .of_still .pure
  | cons n ns ih =>
    refine .still_bind .part fun value => .ite ((h value).bind fun _ => ?_) ih
    exact .still_bind equal_still fun _ => .ite (h n) ih

theorem TracksAll.repeatWhile (h : TracksAll s₀ s₁ V G) (rounds : Nat) :
    Tracks s₀ s₁ (repeatWhile V node nodes rounds) (repeatWhile G node nodes rounds) := by
  induction rounds with
  | zero => exact .of_still .throw
  | succ rounds ih =>
    refine (h node).bind fun _ => .still_bind requireBoolean_still fun _ => ?_
    refine .ite (h.block.inChild.bind fun v => ?_) (.of_still .pure)
    cases v with
    | returned r => exact .of_still .pure
    | _ => exact ih

/-- The variable may still be assigned to when the value has been found. -/
theorem TracksAll.assignVariable (h : TracksAll s₀ s₁ V G) {ref : VariableRef} {u : Variable}
    (hu : s₀.store.variableAt? ref = some u) (hmutable : u.isMutable = true) :
    Tracks s₀ s₁ (assignVariable V ref node) (assignVariable G ref node) := by
  refine (h node).bind fun v => Tracks.of_change fun s hs => ?_
  obtain ⟨w, hw, hw', -⟩ := hs.variableAt? hu
  exact .assigned v hw (hw'.trans hmutable)

theorem TracksAll.assignItem (h : TracksAll s₀ s₁ V G) {offset : Node} :
    Tracks s₀ s₁ (assignItem V name v offset node) (assignItem G name v offset node) := by
  refine .still_bind requireList_still fun id => (h offset).bind fun _ => ?_
  refine .still_bind requireInteger_still fun i => (h node).bind fun value => ?_
  intro s _
  refine ⟨?_, fun _ => rfl⟩
  cases hindex : requireIndex id i s with
  | ok k t =>
    obtain ⟨hle, hlt, rfl, rfl⟩ := requireIndex_eq_ok.mp hindex
    rw [after_bind_of_ok hindex]
    exact .single (.replacedItem value (by omega))
  | error e t =>
    rw [after_bind_of_error hindex, ← after_of_error hindex, requireIndex_still]

theorem TracksAll.assign (h : TracksAll s₀ s₁ V G) {offset : Node} :
    Tracks s₀ s₁ (assign V name offset node) (assign G name offset node) := by
  refine (Tracks.of_still .lookupVariable).bind_of_ok fun s found t hs hfound _ => ?_
  obtain ⟨hfind, rfl⟩ := lookupVariable_eq_ok.mp hfound
  have hall : TracksAll s s₁ V G := fun n => (h n).mono hs
  refine (Tracks.of_still .require).bind_of_ok fun s' _ t' hs' hrequired _ => ?_
  obtain ⟨hmutable, rfl⟩ := require_eq_ok.mp hrequired
  obtain ⟨w, hw, hw', -⟩ := hs'.variableAt? (Store.variableAt?_of_findVariable? hfind)
  have hall' : TracksAll s' s₁ V G := fun n => (hall n).mono hs'
  exact .ite hall'.assignItem (hall'.assignVariable hw (hw'.trans hmutable))

theorem TracksAll.branch (h : TracksAll s₀ s₁ V G) {ts es : List Node} :
    Tracks s₀ s₁ (branch V node ts es) (branch G node ts es) :=
  (h node).bind fun _ => .still_bind requireBoolean_still fun _ =>
    .ite h.block.inChild h.block.inChild

/-! ## Expressions -/

theorem TracksAll.access (h : TracksAll s₀ s₁ V G) :
    Tracks s₀ s₁ (access V name node) (access G name node) := by
  refine .still_bind .lookupVariable fun _ => .ite ?_ (.of_still .pure)
  refine .still_bind requireList_still fun _ => (h node).bind fun _ => ?_
  exact .of_still (requireInteger_still.bind fun _ => requireIndex_still.bind fun _ =>
    Still.get.bind fun _ => .part)

theorem TracksAll.operation (h : TracksAll s₀ s₁ V G) {op : Operator} {left right : Node} :
    Tracks s₀ s₁ (operation V op left right) (operation G op left right) := by
  have hboolean : Tracks s₀ s₁ (do return Value.boolean (← requireBoolean (← V right)))
      (do return Value.boolean (← requireBoolean (← G right))) :=
    (h right).bind fun _ => .of_still (requireBoolean_still.bind fun _ => .pure)
  refine (h left).bind fun l => ?_
  cases op with
  | and => exact .still_bind requireBoolean_still fun _ => .ite hboolean (.of_still .pure)
  | or => exact .still_bind requireBoolean_still fun _ => .ite (.of_still .pure) hboolean
  | _ => exact (h right).bind fun _ => .of_still operate_still

/-! ## Steps -/

/-- **One step makes changes only**, if the evaluation of the parts does. -/
theorem step_tracks (h : TracksAll s₀ s₁ V G) (rounds : Nat) :
    TracksAll s₀ s₁ (step V rounds) (step G rounds) := by
  intro n
  cases n with
  | missing | bare => exact .of_still .raise
  | literal => exact .of_still .pure
  | group e => exact h e
  | binary op l r => exact h.operation
  | access name offset => exact h.access
  | call name arguments => exact h.callWith
  | listLiteral elements =>
    exact h.values.bind fun vs => .of_change fun s _ => .madeList vs.toArray
  | expressionStatement e => exact (h e).bind fun _ => .of_still .pure
  | declaration | global => exact h.declare.bind fun _ => .of_still .pure
  | assignment receiver value =>
    cases receiver with
    | access name offset => exact h.assign.bind fun _ => .of_still .pure
    | _ => exact .of_still .raise
  | conditional c ts es => exact h.branch
  | case value ss => exact h.block.inChild
  | switch c cases => exact (h c).bind fun _ => h.choose
  | whileLoop c ss => exact h.repeatWhile rounds
  | returning e => exact (h e).bind fun _ => .of_still .pure
  | function name parameters =>
    refine Tracks.bind (.still_bind .get fun _ => ?_) fun _ => .of_still .pure
    exact Tracks.defineFunction.bind fun _ => .of_still .pure
  | source gs fs =>
    refine h.values.bind fun _ => h.values.bind fun _ => ?_
    exact .still_bind .lookupFunction fun _ => h.invoke

end

/-! ## Runs -/

/-- A guard whose check holds of all states that follow `s₀`, as long as the evaluation ends in one that
`s₁` follows, does not change the run. -/
theorem tracksAll_guarded {s₀ s₁ : State Body String} {check : Nat → Node → State Body String → Prop}
    (hcheck : ∀ depth n s, s₀.Becomes s → s.Becomes ((visit depth n).after s) →
      ((visit depth n).after s).Becomes s₁ → check depth n s)
    (otherwise : Nat → Node → Run Value) (depth : Nat) :
    TracksAll s₀ s₁ (visit depth) (guarded check otherwise depth) := by
  induction depth with
  | zero => exact fun _ => .of_still .throw
  | succ depth ih =>
    intro n s hs
    obtain ⟨hbecomes, heq⟩ := (step_tracks ih depth n).attached n s hs
    refine ⟨hbecomes, fun hend => ?_⟩
    rw [show guarded check otherwise (depth + 1) n s =
      attached n (step (guarded check otherwise depth) depth n) s from
        if_pos (hcheck (depth + 1) n s hs hbecomes hend)]
    exact heq hend

/-- **However the evaluation of a node ends**, only changes lead to the state in which it ends. -/
theorem visit_becomes (depth : Nat) (n : Node) (s : State Body String) :
    s.Becomes ((visit depth n).after s) := by
  have hcheck : ∀ (d : Nat) (m : Node) t, s.Becomes t → t.Becomes ((visit d m).after t) →
      ((visit d m).after t).Becomes s → True := fun _ _ _ _ _ _ => trivial
  exact (tracksAll_guarded hcheck (fun _ _ => pure .nil) depth n s .refl).1

/-- **Only changes lead to the states in which nodes are evaluated**, to those in which their evaluation
ends, and from there to the end of the run. -/
theorem passes_between (depth : Nat) (n : Node) (s : State Body String) :
    Passes (fun d m t => s.Becomes t ∧ t.Becomes ((visit d m).after t) ∧
      ((visit d m).after t).Becomes ((visit depth n).after s)) depth n s :=
  fun otherwise => (tracksAll_guarded (fun _ _ _ hs hvisit hend => ⟨hs, hvisit, hend⟩) otherwise depth n s
    .refl).2 .refl

/-- They are what the first state becomes. -/
theorem passes_becomes (depth : Nat) (n : Node) (s : State Body String) :
    Passes (fun depth n t => s.Becomes t ∧ s.Becomes ((visit depth n).after t)) depth n s :=
  (passes_between depth n s).mono fun _ _ _ ⟨ht, hvisit, _⟩ => ⟨ht, ht.trans hvisit⟩

end Run

end PlcLang
