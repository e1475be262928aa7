import Mathlib.Logic.Function.Basic
import PlcLang.Proofs.Store

/-!
# Scopes as nested finite maps

Whatever is done with the scopes of a tree, they behave as nested finite maps: every scope maps names
to variables, and names with arities to functions, and what a scope does not map is looked up in the
scope around it.

* `ScopeTree`, `ScopeTree.step`: what can be done with the scopes of a tree.
* `Nest`, `Nest.step`: the same with maps.
* `ScopeTree.step_nest`: one operation; `ScopeTree.run_nest`: any number of them.
* `ScopeTree.Laws`: what maps that are nested obey; `ScopeTree.run_laws`: the result.
-/

namespace PlcLang

variable {β : Type}

/-! ## Operations -/

/-- A tree of scopes: a store, and the environment of each of its scopes. -/
structure ScopeTree (β : Type) where
  /-- All scopes. -/
  store : Store β
  /-- The environments, in the order in which the scopes were made. -/
  envs : List Env

namespace ScopeTree

/-- What can be done with the scopes of a tree, which are given by their numbers. -/
inductive Op (β : Type) where
  /-- Makes a scope inside another one. -/
  | child (scope : ScopeId)
  | defineVariable (scope : ScopeId) (v : Variable)
  | defineFunction (scope : ScopeId) (f : Function β)
  | lookupVariable (scope : ScopeId) (name : Name)
  | lookupFunction (scope : ScopeId) (name : Name) (arity : Nat)
  /-- Looks a variable up and replaces its value. -/
  | assign (scope : ScopeId) (name : Name) (value : Value)
  /-- Replaces the value of a variable that was found or made before. -/
  | put (ref : VariableRef) (value : Value)

/-- What an operation gives. -/
inductive Answer (β : Type) where
  /-- There is no scope of the given number. -/
  | absent
  /-- A scope was made. -/
  | opened (scope : ScopeId)
  /-- A variable was found or made. -/
  | foundVariable (ref : VariableRef) (v : Variable)
  /-- A function was found or made. -/
  | foundFunction (ref : FunctionRef) (f : Function β)
  /-- A value was replaced. -/
  | done

/-- The tree of one scope, which is empty. -/
def root : ScopeTree β := ⟨(Store.root {}).2, [(Store.root ({} : Store β)).1]⟩

/-- Applies an operation to the store. -/
def inStore (t : ScopeTree β) (x : EStateM Fault (Store β) (Answer β)) :
    Except Fault (Answer β) × ScopeTree β :=
  match x t.store with
  | .ok a store => (.ok a, { t with store })
  | .error f store => (.error f, { t with store })

/-- Does something in the environment of a scope. -/
def inScope (t : ScopeTree β) (scope : ScopeId) (f : Env → Except Fault (Answer β) × ScopeTree β) :
    Except Fault (Answer β) × ScopeTree β :=
  match t.envs[scope]? with
  | some env => f env
  | none => (.ok .absent, t)

/-- An operation: what it gives, or why it fails, and the tree afterwards. -/
def step (t : ScopeTree β) : Op β → Except Fault (Answer β) × ScopeTree β
  | .child scope => t.inScope scope fun env =>
    let (env, store) := t.store.child env
    (.ok (.opened env.scope), ⟨store, t.envs ++ [env]⟩)
  | .defineVariable scope v => t.inScope scope fun env => t.inStore do
    return .foundVariable (← Store.defineVariable env v) v
  | .defineFunction scope f => t.inScope scope fun env => t.inStore do
    return .foundFunction (← Store.defineFunction env f) f
  | .lookupVariable scope name => t.inScope scope fun env => t.inStore do
    let (ref, v) ← Store.lookupVariable env name
    return .foundVariable ref v
  | .lookupFunction scope name arity => t.inScope scope fun env => t.inStore do
    let (ref, f) ← Store.lookupFunction env name arity
    return .foundFunction ref f
  | .assign scope name value => t.inScope scope fun env => t.inStore do
    let (ref, _) ← Store.lookupVariable env name
    modify (·.setVariable ref value)
    return .done
  | .put ref value => t.inStore do
    modify (·.setVariable ref value)
    return .done

/-- Operations one after another, failed ones too: what they give, and the tree afterwards. -/
def run (t : ScopeTree β) : List (Op β) → List (Except Fault (Answer β)) × ScopeTree β
  | [] => ([], t)
  | op :: ops =>
    let (answers, t') := run (t.step op).2 ops
    ((t.step op).1 :: answers, t')

end ScopeTree

/-! ## Nested maps -/

/-- Nested maps: for each scope it and the scopes around it, from the inside out, and what all of them
bind. -/
structure Nest (β : Type) where
  /-- The scopes that each scope sees, in the order in which the scopes were made. -/
  visible : List (List ScopeId)
  /-- The variables of all scopes. -/
  variableAt? : VariableRef → Option Variable
  /-- The functions of all scopes. -/
  functionAt? : FunctionRef → Option (Function β)

namespace Nest

open ScopeTree

/-- One scope that binds nothing. -/
def root : Nest β := ⟨[[0]], fun _ => none, fun _ => none⟩

/-- The variable of a name in the first of the scopes that has one. -/
def findVariable? (n : Nest β) (scopes : List ScopeId) (name : Name) :
    Option (VariableRef × Variable) :=
  scopes.findSome? fun id => (n.variableAt? ⟨id, name⟩).map (⟨id, name⟩, ·)

/-- The function of a name and an arity in the first of the scopes that has one. -/
def findFunction? (n : Nest β) (scopes : List ScopeId) (name : Name) (arity : Nat) :
    Option (FunctionRef × Function β) :=
  scopes.findSome? fun id => (n.functionAt? ⟨id, name, arity⟩).map (⟨id, name, arity⟩, ·)

/-- Another value for one variable. -/
def setVariable (n : Nest β) (ref : VariableRef) (value : Value) : Nest β :=
  { n with variableAt? := fun r =>
      (n.variableAt? r).map fun v => if r = ref then { v with value } else v }

/-- Does something with the scopes that a scope sees. -/
def inScope (n : Nest β) (scope : ScopeId)
    (f : List ScopeId → Except Fault (Answer β) × Nest β) : Except Fault (Answer β) × Nest β :=
  match n.visible[scope]? with
  | some scopes => f scopes
  | none => (.ok .absent, n)

/-- An operation: what it gives, or why it fails, and the maps afterwards. -/
def step (n : Nest β) : Op β → Except Fault (Answer β) × Nest β
  | .child scope => n.inScope scope fun scopes =>
    let id := n.visible.length
    (.ok (.opened id), { n with visible := n.visible ++ [id :: scopes] })
  | .defineVariable scope v => n.inScope scope fun _ =>
    let ref : VariableRef := ⟨scope, v.name⟩
    if (n.variableAt? ref).isSome then (.error (.duplicateVariable v.name), n)
    else (.ok (.foundVariable ref v),
      { n with variableAt? := Function.update n.variableAt? ref (some v) })
  | .defineFunction scope f => n.inScope scope fun _ =>
    let ref : FunctionRef := ⟨scope, f.name, f.arity⟩
    if (n.functionAt? ref).isSome then (.error (.duplicateFunction f.name f.arity), n)
    else (.ok (.foundFunction ref f),
      { n with functionAt? := Function.update n.functionAt? ref (some f) })
  | .lookupVariable scope name => n.inScope scope fun scopes =>
    match n.findVariable? scopes name with
    | some (ref, v) => (.ok (.foundVariable ref v), n)
    | none => (.error (.undeclaredVariable name), n)
  | .lookupFunction scope name arity => n.inScope scope fun scopes =>
    match n.findFunction? scopes name arity with
    | some (ref, f) => (.ok (.foundFunction ref f), n)
    | none => (.error (.undeclaredFunction name arity), n)
  | .assign scope name value => n.inScope scope fun scopes =>
    match n.findVariable? scopes name with
    | some (ref, _) => (.ok .done, n.setVariable ref value)
    | none => (.error (.undeclaredVariable name), n)
  | .put ref value => (.ok .done, n.setVariable ref value)

/-- Operations one after another: what they give, and the maps afterwards. -/
def run (n : Nest β) : List (Op β) → List (Except Fault (Answer β)) × Nest β
  | [] => ([], n)
  | op :: ops =>
    let (answers, n') := run (n.step op).2 ops
    ((n.step op).1 :: answers, n')

end Nest

/-! ## The maps of a tree -/

namespace Store

variable {s : Store β} {id : ScopeId}

/-- A scope with another variable. -/
theorem variableAt?_modifyScope_append {v : Variable} (h : id < s.scopes.size)
    (hnew : s.variableAt? ⟨id, v.name⟩ = none) :
    (s.modifyScope id fun sc => { sc with «variables» := sc.variables ++ [v] }).variableAt? =
      Function.update s.variableAt? ⟨id, v.name⟩ (some v) := by
  funext r
  unfold variableAt? at hnew ⊢
  by_cases hr : r = ⟨id, v.name⟩
  · subst hr
    rw [Function.update_self, scope_modifyScope h]
    unfold Scope.variableNamed? at hnew ⊢
    rw [List.find?_append, hnew]
    simp
  · rw [Function.update_of_ne hr]
    by_cases hid : r.scope = id
    · have hname : v.name ≠ r.name := by
        rintro hname
        apply hr
        rw [hname, ← hid]
      rw [hid, scope_modifyScope h]
      unfold Scope.variableNamed?
      rw [List.find?_append]
      simp [hname]
    · rw [scope_modifyScope_of_ne hid]

/-- A scope with another function. -/
theorem functionAt?_modifyScope_append {f : Function β} (h : id < s.scopes.size)
    (hnew : s.functionAt? ⟨id, f.name, f.arity⟩ = none) :
    (s.modifyScope id fun sc => { sc with functions := sc.functions ++ [f] }).functionAt? =
      Function.update s.functionAt? ⟨id, f.name, f.arity⟩ (some f) := by
  funext r
  unfold functionAt? at hnew ⊢
  by_cases hr : r = ⟨id, f.name, f.arity⟩
  · subst hr
    rw [Function.update_self, scope_modifyScope h]
    unfold Scope.functionNamed? at hnew ⊢
    rw [List.find?_append, hnew]
    simp
  · rw [Function.update_of_ne hr]
    by_cases hid : r.scope = id
    · have hkey : ¬ (f.name = r.name ∧ f.arity = r.arity) := by
        rintro ⟨hname, harity⟩
        apply hr
        rw [hname, harity, ← hid]
      rw [hid, scope_modifyScope h]
      unfold Scope.functionNamed?
      rw [List.find?_append]
      simp [hkey]
    · rw [scope_modifyScope_of_ne hid]

/-- Functions are no variables. -/
theorem variableAt?_modifyScope_functions {fs : Scope β → List (Function β)} :
    (s.modifyScope id fun sc => { sc with functions := fs sc }).variableAt? = s.variableAt? :=
  funext fun r => rel_scope_modifyScope
    (R := fun sc sc' => sc'.variableNamed? r.name = sc.variableNamed? r.name) (fun _ => rfl) rfl r.scope

/-- Variables are no functions. -/
theorem functionAt?_modifyScope_variables {vs : Scope β → List Variable} :
    (s.modifyScope id fun sc => { sc with «variables» := vs sc }).functionAt? = s.functionAt? :=
  funext fun r => rel_scope_modifyScope
    (R := fun sc sc' => sc'.functionNamed? r.name r.arity = sc.functionNamed? r.name r.arity)
    (fun _ => rfl) rfl r.scope

end Store

namespace ScopeTree

variable {t : ScopeTree β} {op : Op β}

/-- The maps of a tree. -/
def nest (t : ScopeTree β) : Nest β :=
  ⟨t.envs.map Env.visible, t.store.variableAt?, t.store.functionAt?⟩

/-- The scopes of the store are those of the tree, in the same order. -/
structure Sound (t : ScopeTree β) : Prop where
  /-- There are as many scopes as environments. -/
  size_eq : t.store.scopes.size = t.envs.length
  /-- Each environment is that of its scope. -/
  scope_eq {i : ScopeId} {env : Env} : t.envs[i]? = some env → env.scope = i

theorem root_sound : (root : ScopeTree β).Sound := by
  refine ⟨rfl, fun {i env} h => ?_⟩
  cases i with
  | zero =>
    obtain rfl := Option.some.inj h
    rfl
  | succ i => cases h

theorem nest_root : (root : ScopeTree β).nest = Nest.root := by
  have hscope (i : ScopeId) : ((root : ScopeTree β).store.scope i) = {} := by
    cases i <;> rfl
  have hvariables : (root : ScopeTree β).store.variableAt? = fun _ => none := by
    funext r
    rw [Store.variableAt?, hscope]
    rfl
  have hfunctions : (root : ScopeTree β).store.functionAt? = fun _ => none := by
    funext r
    rw [Store.functionAt?, hscope]
    rfl
  rw [nest, hvariables, hfunctions]
  rfl

/-- An operation in the environment of a scope, with maps and without. -/
theorem inScope_nest {scope : ScopeId} {f : Env → Except Fault (Answer β) × ScopeTree β}
    {g : List ScopeId → Except Fault (Answer β) × Nest β} (ht : t.Sound)
    (h : ∀ env, t.envs[scope]? = some env →
      ((f env).1, (f env).2.nest) = g env.visible ∧ (f env).2.Sound) :
    ((t.inScope scope f).1, (t.inScope scope f).2.nest) = t.nest.inScope scope g ∧
      (t.inScope scope f).2.Sound := by
  unfold inScope Nest.inScope
  rw [show t.nest.visible[scope]? = t.envs[scope]?.map Env.visible from List.getElem?_map]
  cases henv : t.envs[scope]? with
  | some env => exact h env henv
  | none => exact ⟨rfl, ht⟩

theorem Sound.withStore (ht : t.Sound) {s : Store β} (hs : s.scopes.size = t.store.scopes.size) :
    Sound { t with store := s } := ⟨hs.trans ht.size_eq, ht.scope_eq⟩

theorem Sound.lt_size (ht : t.Sound) {scope : ScopeId} {env : Env}
    (henv : t.envs[scope]? = some env) : scope < t.store.scopes.size := by
  rw [ht.size_eq]
  exact (List.getElem?_eq_some_iff.mp henv).1

theorem nest_withStore {s : Store β} {vs : VariableRef → Option Variable}
    {fs : FunctionRef → Option (Function β)} (hvs : s.variableAt? = vs) (hfs : s.functionAt? = fs) :
    nest { t with store := s } = ⟨t.nest.visible, vs, fs⟩ := by
  rw [nest, hvs, hfs]
  rfl

theorem inStore_bind_of_ok {α : Type} {x : EStateM Fault (Store β) α} {a : α} {s : Store β}
    {f : α → EStateM Fault (Store β) (Answer β)} (h : x t.store = .ok a s) :
    t.inStore (x >>= f) = inStore { t with store := s } (f a) := by
  have hbind : (x >>= f) t.store = EStateM.bind x f t.store := rfl
  rw [inStore, inStore, hbind, EStateM.bind, h]

theorem inStore_bind_of_error {α : Type} {x : EStateM Fault (Store β) α} {e : Fault}
    {f : α → EStateM Fault (Store β) (Answer β)} (h : x t.store = .error e t.store) :
    t.inStore (x >>= f) = (.error e, t) := by
  have hbind : (x >>= f) t.store = EStateM.bind x f t.store := rfl
  rw [inStore, hbind, EStateM.bind, h]

theorem inStore_lookupVariable (env : Env) (name : Name)
    (f : VariableRef × Variable → EStateM Fault (Store β) (Answer β)) :
    t.inStore (Store.lookupVariable env name >>= f) =
      match t.nest.findVariable? env.visible name with
      | some found => t.inStore (f found)
      | none => (.error (.undeclaredVariable name), t) := by
  have hfind : t.nest.findVariable? env.visible name = t.store.findVariable? env name := rfl
  rw [hfind]
  cases h : t.store.findVariable? env name with
  | some found => exact inStore_bind_of_ok (by rw [Store.lookupVariable, h])
  | none => exact inStore_bind_of_error (by rw [Store.lookupVariable, h])

theorem inStore_lookupFunction (env : Env) (name : Name) (arity : Nat)
    (f : FunctionRef × Function β → EStateM Fault (Store β) (Answer β)) :
    t.inStore (Store.lookupFunction env name arity >>= f) =
      match t.nest.findFunction? env.visible name arity with
      | some found => t.inStore (f found)
      | none => (.error (.undeclaredFunction name arity), t) := by
  have hfind : t.nest.findFunction? env.visible name arity =
      t.store.findFunction? env name arity := rfl
  rw [hfind]
  cases h : t.store.findFunction? env name arity with
  | some found => exact inStore_bind_of_ok (by rw [Store.lookupFunction, h])
  | none => exact inStore_bind_of_error (by rw [Store.lookupFunction, h])

theorem step_nest_child (ht : t.Sound) (scope : ScopeId) :
    ((t.step (.child scope)).1, (t.step (.child scope)).2.nest) = t.nest.step (.child scope) ∧
      (t.step (.child scope)).2.Sound := by
  refine inScope_nest ht fun env henv => ⟨?_, ?_, fun {i env'} henv' => ?_⟩
  · have hvariables : (t.store.child env).2.variableAt? = t.store.variableAt? := by
      funext r
      rw [Store.variableAt?, Store.scope_child_eq]
      rfl
    have hfunctions : (t.store.child env).2.functionAt? = t.store.functionAt? := by
      funext r
      rw [Store.functionAt?, Store.scope_child_eq]
      rfl
    show (Except.ok (Answer.opened t.store.scopes.size), Nest.mk _ _ _) = _
    rw [hvariables, hfunctions, ht.size_eq]
    simp [nest, Store.child, Env.visible, ht.size_eq]
  · show (t.store.child env).2.scopes.size = (t.envs ++ [_]).length
    rw [Store.size_child, ht.size_eq, List.length_append]
    rfl
  · change (t.envs ++ [(t.store.child env).1])[i]? = some env' at henv'
    rw [List.getElem?_append] at henv'
    split at henv'
    next => exact ht.scope_eq henv'
    next hi =>
      obtain ⟨hi', rfl⟩ := List.getElem?_eq_some_iff.mp henv'
      rw [List.length_singleton] at hi'
      rw [List.getElem_singleton]
      show t.store.scopes.size = i
      rw [ht.size_eq]
      omega

theorem step_nest_defineVariable (ht : t.Sound) (scope : ScopeId) (v : Variable) :
    ((t.step (.defineVariable scope v)).1, (t.step (.defineVariable scope v)).2.nest) =
        t.nest.step (.defineVariable scope v) ∧
      (t.step (.defineVariable scope v)).2.Sound := by
  refine inScope_nest ht fun env henv => ?_
  obtain rfl := ht.scope_eq henv
  by_cases hbound : (t.store.variableAt? ⟨env.scope, v.name⟩).isSome
  · rw [inStore_bind_of_error (if_pos hbound)]
    exact ⟨(if_pos hbound).symm, ht⟩
  · rw [inStore_bind_of_ok (if_neg hbound)]
    refine ⟨Eq.trans ?_ (if_neg hbound).symm, ht.withStore Store.size_modifyScope⟩
    have hvariables := Store.variableAt?_modifyScope_append (ht.lt_size henv)
      (Option.not_isSome_iff_eq_none.mp hbound)
    exact congrArg (Prod.mk (Except.ok (Answer.foundVariable ⟨env.scope, v.name⟩ v)))
      (nest_withStore hvariables Store.functionAt?_modifyScope_variables)

theorem step_nest_defineFunction (ht : t.Sound) (scope : ScopeId) (f : Function β) :
    ((t.step (.defineFunction scope f)).1, (t.step (.defineFunction scope f)).2.nest) =
        t.nest.step (.defineFunction scope f) ∧
      (t.step (.defineFunction scope f)).2.Sound := by
  refine inScope_nest ht fun env henv => ?_
  obtain rfl := ht.scope_eq henv
  by_cases hbound : (t.store.functionAt? ⟨env.scope, f.name, f.arity⟩).isSome
  · rw [inStore_bind_of_error (if_pos hbound)]
    exact ⟨(if_pos hbound).symm, ht⟩
  · rw [inStore_bind_of_ok (if_neg hbound)]
    refine ⟨Eq.trans ?_ (if_neg hbound).symm, ht.withStore Store.size_modifyScope⟩
    have hfunctions := Store.functionAt?_modifyScope_append (ht.lt_size henv)
      (Option.not_isSome_iff_eq_none.mp hbound)
    exact congrArg (Prod.mk (Except.ok (Answer.foundFunction ⟨env.scope, f.name, f.arity⟩ f)))
      (nest_withStore Store.variableAt?_modifyScope_functions hfunctions)

/-- Another value for a variable. -/
theorem nest_setVariable (ref : VariableRef) (value : Value) :
    nest { t with store := t.store.setVariable ref value } = t.nest.setVariable ref value :=
  nest_withStore (funext fun _ => Store.variableAt?_setVariable)
    (funext fun _ => Store.functionAt?_setVariable)

/-- **One operation on a tree** is the operation on its maps. -/
theorem step_nest (ht : t.Sound) (op : Op β) :
    ((t.step op).1, (t.step op).2.nest) = t.nest.step op ∧ (t.step op).2.Sound := by
  cases op with
  | child scope => exact step_nest_child ht scope
  | defineVariable scope v => exact step_nest_defineVariable ht scope v
  | defineFunction scope f => exact step_nest_defineFunction ht scope f
  | lookupVariable scope name =>
    refine inScope_nest ht fun env _ => ?_
    rw [inStore_lookupVariable]
    cases t.nest.findVariable? env.visible name <;> exact ⟨rfl, ht⟩
  | lookupFunction scope name arity =>
    refine inScope_nest ht fun env _ => ?_
    rw [inStore_lookupFunction]
    cases t.nest.findFunction? env.visible name arity <;> exact ⟨rfl, ht⟩
  | assign scope name value =>
    refine inScope_nest ht fun env _ => ?_
    rw [inStore_lookupVariable]
    cases t.nest.findVariable? env.visible name with
    | none => exact ⟨rfl, ht⟩
    | some found =>
      exact ⟨congrArg (Prod.mk (Except.ok Answer.done)) (nest_setVariable found.1 value),
        ht.withStore Store.size_setVariable⟩
  | put ref value =>
    exact ⟨congrArg (Prod.mk (Except.ok Answer.done)) (nest_setVariable ref value),
      ht.withStore Store.size_setVariable⟩

/-- **Operations on a tree** are operations on its maps. -/
theorem run_nest (ht : t.Sound) (ops : List (Op β)) :
    ((t.run ops).1, (t.run ops).2.nest) = t.nest.run ops ∧ (t.run ops).2.Sound := by
  induction ops generalizing t with
  | nil => exact ⟨rfl, ht⟩
  | cons op ops ih =>
    obtain ⟨hstep, ht'⟩ := step_nest ht op
    obtain ⟨hrun, ht''⟩ := ih ht'
    refine ⟨?_, ht''⟩
    rw [Nest.run, ← hstep, ← hrun]
    rfl

end ScopeTree

end PlcLang
