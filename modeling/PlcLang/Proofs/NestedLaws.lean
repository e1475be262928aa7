import PlcLang.Proofs.Nested

/-!
# The laws of nested scopes

What can be relied on in a tree of scopes, whatever has been done with it: which binding a lookup
finds, when an operation fails, and which lookups it changes.

* `Reaches`: from here nothing nearer is bound.
* `ScopeTree.Laws`: the laws, which hold of every tree that is built from an empty scope.
* `ScopeTree.run_laws`: the result.
-/

namespace PlcLang

/-- The scope is one of the given ones, and none before it binds anything. -/
def Reaches {α : Type} (scopes : List ScopeId) (binds : ScopeId → Option α) (id : ScopeId) : Prop :=
  ∃ inner outer, scopes = inner ++ id :: outer ∧ ∀ i ∈ inner, binds i = none

/-! ## First bindings -/

section

variable {α κ : Type} [DecidableEq κ] {scopes : List ScopeId} {binds : κ → Option α}
  {r : ScopeId → κ} {id : ScopeId} {k : κ} {a : α}

omit [DecidableEq κ] in
theorem findSome?_binding_eq_some :
    (scopes.findSome? fun i => (binds (r i)).map (r i, ·)) = some (k, a) ↔
      ∃ id, r id = k ∧ Reaches scopes (fun i => binds (r i)) id ∧ binds k = some a := by
  rw [List.findSome?_eq_some_iff]
  constructor
  · rintro ⟨inner, id, outer, rfl, hid, hinner⟩
    obtain ⟨b, hb, heq⟩ := Option.map_eq_some_iff.mp hid
    cases heq
    exact ⟨id, rfl, ⟨inner, outer, rfl, fun i hi => Option.map_eq_none_iff.mp (hinner i hi)⟩, hb⟩
  · rintro ⟨id, rfl, ⟨inner, outer, rfl, hinner⟩, hid⟩
    refine ⟨inner, id, outer, rfl, ?_, fun i hi => ?_⟩
    · rw [hid, Option.map_some]
    · exact Option.map_eq_none_iff.mpr (hinner i hi)

omit [DecidableEq κ] in
theorem findSome?_binding_eq_none :
    (scopes.findSome? fun i => (binds (r i)).map (r i, ·)) = none ↔
      ∀ i ∈ scopes, binds (r i) = none := by
  rw [List.findSome?_eq_none_iff]
  exact forall₂_congr fun i _ => Option.map_eq_none_iff

/-- A new binding is found from where nothing nearer is bound. -/
theorem findSome?_update_of_reaches (h : Reaches scopes (fun i => binds (r i)) id) :
    (scopes.findSome? fun i => (Function.update binds (r id) (some a) (r i)).map (r i, ·)) =
      some (r id, a) := by
  obtain ⟨inner, outer, rfl, hinner⟩ := h
  induction inner with
  | nil => rw [List.nil_append, List.findSome?_cons, Function.update_self, Option.map_some]
  | cons i inner ih =>
    obtain ⟨hi, hinner⟩ := List.forall_mem_cons.mp hinner
    rw [List.cons_append, List.findSome?_cons]
    by_cases hid : r i = r id
    · rw [hid, Function.update_self, Option.map_some]
    · rw [Function.update_of_ne hid, show binds (r i) = none from hi, Option.map_none]
      exact ih hinner

/-- From everywhere else, and under every other key, what is found is what was found before. -/
theorem findSome?_update_of_not_reaches
    (h : ∀ id, r id = k → ¬ Reaches scopes (fun i => binds (r i)) id) :
    (scopes.findSome? fun i => (Function.update binds k (some a) (r i)).map (r i, ·)) =
      scopes.findSome? fun i => (binds (r i)).map (r i, ·) := by
  induction scopes with
  | nil => rfl
  | cons i scopes ih =>
    have hkey : r i ≠ k := fun hkey => h i hkey ⟨[], scopes, rfl, nofun⟩
    rw [List.findSome?_cons, List.findSome?_cons, Function.update_of_ne hkey]
    cases hi : binds (r i) with
    | some b => rfl
    | none =>
      apply ih
      rintro id hid ⟨inner, outer, rfl, hinner⟩
      exact h id hid ⟨i :: inner, outer, rfl, List.forall_mem_cons.mpr ⟨hi, hinner⟩⟩

end

variable {β : Type}

/-! ## Lookups in nested maps -/

namespace Nest

variable {n : Nest β} {scopes : List ScopeId} {name : Name}

theorem variableAt?_setVariable (ref r : VariableRef) (value : Value) :
    (n.setVariable ref value).variableAt? r =
      (n.variableAt? r).map fun v => if r = ref then { v with value } else v := rfl

/-- Another value is found under the same reference as the old one. -/
theorem findVariable?_setVariable (ref : VariableRef) (value : Value) :
    (n.setVariable ref value).findVariable? scopes name =
      (n.findVariable? scopes name).map fun found =>
        (found.1, if found.1 = ref then { found.2 with value } else found.2) := by
  unfold findVariable?
  induction scopes with
  | nil => rfl
  | cons i scopes ih =>
    rw [List.findSome?_cons, List.findSome?_cons, variableAt?_setVariable]
    cases n.variableAt? ⟨i, name⟩ with
    | some v => rfl
    | none => exact ih

end Nest

/-! ## The laws -/

namespace ScopeTree

/-- The scopes that a scope sees: itself and those around it, from the inside out. -/
def Sees (t : ScopeTree β) (scope : ScopeId) (scopes : List ScopeId) : Prop :=
  t.nest.visible[scope]? = some scopes

/-- The variable that is found from a scope. -/
def variableFrom (t : ScopeTree β) (scope : ScopeId) (name : Name) : Except Fault (Answer β) :=
  (t.step (.lookupVariable scope name)).1

/-- The function that is found from a scope. -/
def functionFrom (t : ScopeTree β) (scope : ScopeId) (name : Name) (arity : Nat) :
    Except Fault (Answer β) :=
  (t.step (.lookupFunction scope name arity)).1

/-- What can be relied on in a tree of scopes. -/
structure Laws (t : ScopeTree β) : Prop where
  /-- The variable that is found is the one of the nearest scope that binds the name. -/
  variableFrom_eq_ok {scope scopes name ref v} : t.Sees scope scopes →
    (t.variableFrom scope name = .ok (.foundVariable ref v) ↔
      ref.name = name ∧ Reaches scopes (fun id => t.store.variableAt? ⟨id, name⟩) ref.scope ∧
        t.store.variableAt? ref = some v)
  /-- None is found just if no scope that is seen binds the name. -/
  variableFrom_eq_error {scope scopes name e} : t.Sees scope scopes →
    (t.variableFrom scope name = .error e ↔
      e = .undeclaredVariable name ∧ ∀ id ∈ scopes, t.store.variableAt? ⟨id, name⟩ = none)
  /-- The function that is found is the one of the nearest scope that binds the name and arity. -/
  functionFrom_eq_ok {scope scopes name arity ref f} : t.Sees scope scopes →
    (t.functionFrom scope name arity = .ok (.foundFunction ref f) ↔
      (ref.name = name ∧ ref.arity = arity) ∧
        Reaches scopes (fun id => t.store.functionAt? ⟨id, name, arity⟩) ref.scope ∧
          t.store.functionAt? ref = some f)
  /-- None is found just if no scope that is seen binds the name and arity. -/
  functionFrom_eq_error {scope scopes name arity e} : t.Sees scope scopes →
    (t.functionFrom scope name arity = .error e ↔
      e = .undeclaredFunction name arity ∧
        ∀ id ∈ scopes, t.store.functionAt? ⟨id, name, arity⟩ = none)
  /-- A function that is found has as many parameters as were asked for, so that a call with as many
  arguments does not fail because of their number. -/
  arity {scope name arity ref f} : t.functionFrom scope name arity = .ok (.foundFunction ref f) →
    f.parameterTypes.length = arity ∧
      ∀ name' expected received, f.bodyFor arity ≠ .error (.argumentCount name' expected received)
  /-- A variable cannot be made just if the same scope binds its name. -/
  defineVariable_eq_error {scope scopes v e} : t.Sees scope scopes →
    ((t.step (.defineVariable scope v)).1 = .error e ↔
      e = .duplicateVariable v.name ∧ t.store.variableAt? ⟨scope, v.name⟩ ≠ none)
  /-- A function cannot be made just if the same scope binds its name and arity. -/
  defineFunction_eq_error {scope scopes f e} : t.Sees scope scopes →
    ((t.step (.defineFunction scope f)).1 = .error e ↔
      e = .duplicateFunction f.name f.arity ∧ t.store.functionAt? ⟨scope, f.name, f.arity⟩ ≠ none)
  /-- An operation that fails changes nothing. -/
  failed {op e} : (t.step op).1 = .error e → (t.step op).2 = t
  /-- Lookups change nothing. -/
  lookups {scope name arity} : (t.step (.lookupVariable scope name)).2 = t ∧
    (t.step (.lookupFunction scope name arity)).2 = t
  /-- No operation changes what a scope sees. -/
  sees {op scope scopes} : t.Sees scope scopes → (t.step op).2.Sees scope scopes
  /-- A new scope sees what the scope around it sees, and no other scope finds anything else. -/
  child {scope scopes} : t.Sees scope scopes → ∃ t' id,
    t.step (.child scope) = (.ok (.opened id), t') ∧ (∀ scopes, ¬ t.Sees id scopes) ∧
      t'.Sees id (id :: scopes) ∧ (∀ name, t'.variableFrom id name = t.variableFrom scope name) ∧
      (∀ name arity, t'.functionFrom id name arity = t.functionFrom scope name arity) ∧
      ∀ other others, t.Sees other others →
        (∀ name, t'.variableFrom other name = t.variableFrom other name) ∧
          ∀ name arity, t'.functionFrom other name arity = t.functionFrom other name arity
  /-- A new variable is found from where nothing nearer is bound to its name, and every other lookup
  gives what it gave. -/
  defineVariable {scope scopes v} : t.Sees scope scopes →
    t.store.variableAt? ⟨scope, v.name⟩ = none → ∃ t',
    t.step (.defineVariable scope v) = (.ok (.foundVariable ⟨scope, v.name⟩ v), t') ∧
      (∀ other others, t.Sees other others →
        Reaches others (fun id => t.store.variableAt? ⟨id, v.name⟩) scope →
        t'.variableFrom other v.name = .ok (.foundVariable ⟨scope, v.name⟩ v)) ∧
      (∀ other others name, t.Sees other others →
        ¬ (name = v.name ∧ Reaches others (fun id => t.store.variableAt? ⟨id, v.name⟩) scope) →
        t'.variableFrom other name = t.variableFrom other name) ∧
      ∀ other name arity, t'.functionFrom other name arity = t.functionFrom other name arity
  /-- A new function is found from where nothing nearer is bound to its name and arity, and every other
  lookup gives what it gave. -/
  defineFunction {scope scopes f} : t.Sees scope scopes →
    t.store.functionAt? ⟨scope, f.name, f.arity⟩ = none → ∃ t',
    t.step (.defineFunction scope f) = (.ok (.foundFunction ⟨scope, f.name, f.arity⟩ f), t') ∧
      (∀ other others, t.Sees other others →
        Reaches others (fun id => t.store.functionAt? ⟨id, f.name, f.arity⟩) scope →
        t'.functionFrom other f.name f.arity =
          .ok (.foundFunction ⟨scope, f.name, f.arity⟩ f)) ∧
      (∀ other others name arity, t.Sees other others →
        ¬ ((name = f.name ∧ arity = f.arity) ∧
          Reaches others (fun id => t.store.functionAt? ⟨id, f.name, f.arity⟩) scope) →
        t'.functionFrom other name arity = t.functionFrom other name arity) ∧
      ∀ other name, t'.variableFrom other name = t.variableFrom other name
  /-- An assignment replaces the value of the variable that is found, and fails if there is none. -/
  assign {scope name value} :
    (∀ ref v, t.variableFrom scope name = .ok (.foundVariable ref v) →
      t.step (.assign scope name value) = t.step (.put ref value)) ∧
    ∀ e, t.variableFrom scope name = .error e → t.step (.assign scope name value) = (.error e, t)
  /-- The new value is held from wherever the variable is found, and every other lookup gives what it
  gave. -/
  put {ref value} : ∃ t', t.step (.put ref value) = (.ok .done, t') ∧
    (∀ other name v, t.variableFrom other name = .ok (.foundVariable ref v) →
      t'.variableFrom other name = .ok (.foundVariable ref { v with value })) ∧
    (∀ other name, (∀ v, t.variableFrom other name ≠ .ok (.foundVariable ref v)) →
      t'.variableFrom other name = t.variableFrom other name) ∧
    ∀ other name arity, t'.functionFrom other name arity = t.functionFrom other name arity

/-! ## Lookups in trees -/

variable {t t' : ScopeTree β} {scope : ScopeId} {scopes : List ScopeId} {name : Name} {arity : Nat}

theorem Sound.variableFrom_eq (ht : t.Sound) (h : t.Sees scope scopes) :
    t.variableFrom scope name =
      match t.nest.findVariable? scopes name with
      | some (ref, v) => .ok (.foundVariable ref v)
      | none => .error (.undeclaredVariable name) := by
  have hstep : t.variableFrom scope name = (t.nest.step (.lookupVariable scope name)).1 :=
    congrArg Prod.fst (step_nest ht (.lookupVariable scope name)).1
  rw [hstep, Nest.step, Nest.inScope, show t.nest.visible[scope]? = some scopes from h]
  dsimp only
  cases t.nest.findVariable? scopes name <;> rfl

theorem Sound.functionFrom_eq (ht : t.Sound) (h : t.Sees scope scopes) :
    t.functionFrom scope name arity =
      match t.nest.findFunction? scopes name arity with
      | some (ref, f) => .ok (.foundFunction ref f)
      | none => .error (.undeclaredFunction name arity) := by
  have hstep : t.functionFrom scope name arity = (t.nest.step (.lookupFunction scope name arity)).1 :=
    congrArg Prod.fst (step_nest ht (.lookupFunction scope name arity)).1
  rw [hstep, Nest.step, Nest.inScope, show t.nest.visible[scope]? = some scopes from h]
  dsimp only
  cases t.nest.findFunction? scopes name arity <;> rfl

theorem inScope_of_some {env : Env} {f : Env → Except Fault (Answer β) × ScopeTree β}
    (h : t.envs[scope]? = some env) : t.inScope scope f = f env := by rw [inScope, h]

theorem inScope_of_none {f : Env → Except Fault (Answer β) × ScopeTree β}
    (h : t.envs[scope]? = none) : t.inScope scope f = (.ok .absent, t) := by rw [inScope, h]

/-- Nothing is found from a scope that is not there. -/
theorem envs_of_not_sees (h : ∀ scopes, ¬ t.Sees scope scopes) : t.envs[scope]? = none := by
  cases henv : t.envs[scope]? with
  | none => rfl
  | some env => exact absurd (show t.Sees scope env.visible by simp [Sees, nest, henv]) (h _)

theorem variableFrom_of_not_sees (h : ∀ scopes, ¬ t.Sees scope scopes) :
    t.variableFrom scope name = .ok .absent :=
  congrArg Prod.fst (inScope_of_none (envs_of_not_sees h))

theorem functionFrom_of_not_sees (h : ∀ scopes, ¬ t.Sees scope scopes) :
    t.functionFrom scope name arity = .ok .absent :=
  congrArg Prod.fst (inScope_of_none (envs_of_not_sees h))

/-- A scope sees some scopes, or it is not there. -/
theorem exists_sees_or (t : ScopeTree β) (scope : ScopeId) :
    (∃ scopes, t.Sees scope scopes) ∨ ∀ scopes, ¬ t.Sees scope scopes :=
  (em _).imp_right not_exists.mp

/-- What is found depends on what is seen and on what variables there are. -/
theorem Sound.variableFrom_congr (ht : t.Sound) (ht' : t'.Sound)
    (hvisible : t'.nest.visible = t.nest.visible)
    (h : ∀ scopes, t.Sees scope scopes →
      t'.nest.findVariable? scopes name = t.nest.findVariable? scopes name) :
    t'.variableFrom scope name = t.variableFrom scope name := by
  have hsees (scopes : List ScopeId) : t'.Sees scope scopes ↔ t.Sees scope scopes := by
    rw [Sees, Sees, hvisible]
  rcases t.exists_sees_or scope with ⟨scopes, hscopes⟩ | hscope
  · rw [ht.variableFrom_eq hscopes, ht'.variableFrom_eq ((hsees _).mpr hscopes), h scopes hscopes]
  · rw [variableFrom_of_not_sees hscope, variableFrom_of_not_sees fun _ hs => hscope _ ((hsees _).mp hs)]

theorem Sound.functionFrom_congr (ht : t.Sound) (ht' : t'.Sound)
    (hvisible : t'.nest.visible = t.nest.visible)
    (h : ∀ scopes, t.Sees scope scopes →
      t'.nest.findFunction? scopes name arity = t.nest.findFunction? scopes name arity) :
    t'.functionFrom scope name arity = t.functionFrom scope name arity := by
  have hsees (scopes : List ScopeId) : t'.Sees scope scopes ↔ t.Sees scope scopes := by
    rw [Sees, Sees, hvisible]
  rcases t.exists_sees_or scope with ⟨scopes, hscopes⟩ | hscope
  · rw [ht.functionFrom_eq hscopes, ht'.functionFrom_eq ((hsees _).mpr hscopes), h scopes hscopes]
  · rw [functionFrom_of_not_sees hscope, functionFrom_of_not_sees fun _ hs => hscope _ ((hsees _).mp hs)]

theorem Sound.variableFrom_eq_ok (ht : t.Sound) (h : t.Sees scope scopes) {ref : VariableRef}
    {v : Variable} : t.variableFrom scope name = .ok (.foundVariable ref v) ↔
      t.nest.findVariable? scopes name = some (ref, v) := by
  rw [ht.variableFrom_eq h]
  cases t.nest.findVariable? scopes name <;> simp [Prod.ext_iff]

theorem Sound.functionFrom_eq_ok (ht : t.Sound) (h : t.Sees scope scopes) {ref : FunctionRef}
    {f : Function β} : t.functionFrom scope name arity = .ok (.foundFunction ref f) ↔
      t.nest.findFunction? scopes name arity = some (ref, f) := by
  rw [ht.functionFrom_eq h]
  cases t.nest.findFunction? scopes name arity <;> simp [Prod.ext_iff]

/-! ## The laws hold -/

theorem Sound.defineVariable_law (ht : t.Sound) (h : t.Sees scope scopes) {v : Variable}
    (hnew : t.store.variableAt? ⟨scope, v.name⟩ = none) : ∃ t',
    t.step (.defineVariable scope v) = (.ok (.foundVariable ⟨scope, v.name⟩ v), t') ∧
      (∀ other others, t.Sees other others →
        Reaches others (fun id => t.store.variableAt? ⟨id, v.name⟩) scope →
        t'.variableFrom other v.name = .ok (.foundVariable ⟨scope, v.name⟩ v)) ∧
      (∀ other others name, t.Sees other others →
        ¬ (name = v.name ∧ Reaches others (fun id => t.store.variableAt? ⟨id, v.name⟩) scope) →
        t'.variableFrom other name = t.variableFrom other name) ∧
      ∀ other name arity, t'.functionFrom other name arity = t.functionFrom other name arity := by
  obtain ⟨hstep, ht'⟩ := step_nest ht (.defineVariable scope v)
  have hdefined : t.nest.step (.defineVariable scope v) =
      (.ok (.foundVariable ⟨scope, v.name⟩ v), { t.nest with
        variableAt? := Function.update t.nest.variableAt? ⟨scope, v.name⟩ (some v) }) := by
    rw [Nest.step, Nest.inScope, show t.nest.visible[scope]? = some scopes from h]
    exact if_neg (by rw [show t.nest.variableAt? ⟨scope, v.name⟩ = none from hnew]; exact nofun)
  rw [hdefined] at hstep
  obtain ⟨hanswer, hnest⟩ := Prod.ext_iff.mp hstep
  dsimp only at hanswer hnest
  have hvisible : (t.step (.defineVariable scope v)).2.nest.visible = t.nest.visible := by rw [hnest]
  refine ⟨_, Prod.ext hanswer rfl, fun other others hother hreaches => ?_,
    fun other others name hother hnot => ?_, fun other name arity => ?_⟩
  · rw [ht'.variableFrom_eq_ok (by rwa [Sees, hvisible]), hnest]
    exact findSome?_update_of_reaches (r := fun id => (⟨id, v.name⟩ : VariableRef)) hreaches
  · refine ht.variableFrom_congr ht' hvisible fun others' hothers' => ?_
    obtain rfl := Option.some.inj (hother.symm.trans hothers')
    rw [hnest]
    refine findSome?_update_of_not_reaches (r := fun id => (⟨id, name⟩ : VariableRef)) ?_
    rintro id heq hreaches
    cases heq
    exact hnot ⟨rfl, hreaches⟩
  · refine ht.functionFrom_congr ht' hvisible fun _ _ => ?_
    rw [hnest]
    rfl

theorem Sound.defineFunction_law (ht : t.Sound) (h : t.Sees scope scopes) {f : Function β}
    (hnew : t.store.functionAt? ⟨scope, f.name, f.arity⟩ = none) : ∃ t',
    t.step (.defineFunction scope f) = (.ok (.foundFunction ⟨scope, f.name, f.arity⟩ f), t') ∧
      (∀ other others, t.Sees other others →
        Reaches others (fun id => t.store.functionAt? ⟨id, f.name, f.arity⟩) scope →
        t'.functionFrom other f.name f.arity =
          .ok (.foundFunction ⟨scope, f.name, f.arity⟩ f)) ∧
      (∀ other others name arity, t.Sees other others →
        ¬ ((name = f.name ∧ arity = f.arity) ∧
          Reaches others (fun id => t.store.functionAt? ⟨id, f.name, f.arity⟩) scope) →
        t'.functionFrom other name arity = t.functionFrom other name arity) ∧
      ∀ other name, t'.variableFrom other name = t.variableFrom other name := by
  obtain ⟨hstep, ht'⟩ := step_nest ht (.defineFunction scope f)
  have hdefined : t.nest.step (.defineFunction scope f) =
      (.ok (.foundFunction ⟨scope, f.name, f.arity⟩ f), { t.nest with
        functionAt? := Function.update t.nest.functionAt? ⟨scope, f.name, f.arity⟩ (some f) }) := by
    rw [Nest.step, Nest.inScope, show t.nest.visible[scope]? = some scopes from h]
    exact if_neg
      (by rw [show t.nest.functionAt? ⟨scope, f.name, f.arity⟩ = none from hnew]; exact nofun)
  rw [hdefined] at hstep
  obtain ⟨hanswer, hnest⟩ := Prod.ext_iff.mp hstep
  dsimp only at hanswer hnest
  have hvisible : (t.step (.defineFunction scope f)).2.nest.visible = t.nest.visible := by rw [hnest]
  refine ⟨_, Prod.ext hanswer rfl, fun other others hother hreaches => ?_,
    fun other others name arity hother hnot => ?_, fun other name => ?_⟩
  · rw [ht'.functionFrom_eq_ok (by rwa [Sees, hvisible]), hnest]
    exact findSome?_update_of_reaches (r := fun id => (⟨id, f.name, f.arity⟩ : FunctionRef)) hreaches
  · refine ht.functionFrom_congr ht' hvisible fun others' hothers' => ?_
    obtain rfl := Option.some.inj (hother.symm.trans hothers')
    rw [hnest]
    refine findSome?_update_of_not_reaches (r := fun id => (⟨id, name, arity⟩ : FunctionRef)) ?_
    rintro id heq hreaches
    cases heq
    exact hnot ⟨⟨rfl, rfl⟩, hreaches⟩
  · refine ht.variableFrom_congr ht' hvisible fun _ _ => ?_
    rw [hnest]
    rfl

theorem Sound.child_law (ht : t.Sound) (h : t.Sees scope scopes) : ∃ t' id,
    t.step (.child scope) = (.ok (.opened id), t') ∧ (∀ scopes, ¬ t.Sees id scopes) ∧
      t'.Sees id (id :: scopes) ∧ (∀ name, t'.variableFrom id name = t.variableFrom scope name) ∧
      (∀ name arity, t'.functionFrom id name arity = t.functionFrom scope name arity) ∧
      ∀ other others, t.Sees other others →
        (∀ name, t'.variableFrom other name = t.variableFrom other name) ∧
          ∀ name arity, t'.functionFrom other name arity = t.functionFrom other name arity := by
  obtain ⟨hstep, ht'⟩ := step_nest ht (.child scope)
  have hopened : t.nest.step (.child scope) = (.ok (.opened t.nest.visible.length),
      { t.nest with visible := t.nest.visible ++ [t.nest.visible.length :: scopes] }) := by
    rw [Nest.step, Nest.inScope, show t.nest.visible[scope]? = some scopes from h]
  rw [hopened] at hstep
  obtain ⟨hanswer, hnest⟩ := Prod.ext_iff.mp hstep
  dsimp only at hanswer hnest
  -- nothing is bound in a scope that is not there yet
  have hsize : t.store.scopes.size = t.nest.visible.length := by
    rw [ht.size_eq, nest, List.length_map]
  have hscope : t.store.scope t.nest.visible.length = {} := Store.scope_of_ge (Nat.le_of_eq hsize)
  have hsees : (t.step (.child scope)).2.Sees t.nest.visible.length
      (t.nest.visible.length :: scopes) := by
    rw [Sees, hnest]
    exact List.getElem?_concat_length
  have hothers {other : ScopeId} {others : List ScopeId} (hother : t.Sees other others) :
      (t.step (.child scope)).2.Sees other others := by
    rw [Sees, hnest, List.getElem?_append_left (List.getElem?_eq_some_iff.mp hother).1]
    exact hother
  refine ⟨_, _, Prod.ext hanswer rfl, fun scopes hs => ?_, hsees, fun name => ?_, fun name arity => ?_,
    fun other others hother => ⟨fun name => ?_, fun name arity => ?_⟩⟩
  · exact Nat.lt_irrefl _ (List.getElem?_eq_some_iff.mp hs).1
  · rw [ht'.variableFrom_eq hsees, ht.variableFrom_eq h, hnest, Nest.findVariable?,
      List.findSome?_cons,
      show t.nest.variableAt? ⟨t.nest.visible.length, name⟩ = none by
        show t.store.variableAt? _ = none
        rw [Store.variableAt?, hscope]
        rfl]
    rfl
  · rw [ht'.functionFrom_eq hsees, ht.functionFrom_eq h, hnest, Nest.findFunction?,
      List.findSome?_cons,
      show t.nest.functionAt? ⟨t.nest.visible.length, name, arity⟩ = none by
        show t.store.functionAt? _ = none
        rw [Store.functionAt?, hscope]
        rfl]
    rfl
  · rw [ht'.variableFrom_eq (hothers hother), ht.variableFrom_eq hother, hnest]
    rfl
  · rw [ht'.functionFrom_eq (hothers hother), ht.functionFrom_eq hother, hnest]
    rfl

theorem Sound.put_law (ht : t.Sound) {ref : VariableRef} {value : Value} : ∃ t',
    t.step (.put ref value) = (.ok .done, t') ∧
      (∀ other name v, t.variableFrom other name = .ok (.foundVariable ref v) →
        t'.variableFrom other name = .ok (.foundVariable ref { v with value })) ∧
      (∀ other name, (∀ v, t.variableFrom other name ≠ .ok (.foundVariable ref v)) →
        t'.variableFrom other name = t.variableFrom other name) ∧
      ∀ other name arity, t'.functionFrom other name arity = t.functionFrom other name arity := by
  obtain ⟨hstep, ht'⟩ := step_nest ht (.put ref value)
  obtain ⟨hanswer, hnest⟩ := Prod.ext_iff.mp hstep
  dsimp only [Nest.step] at hanswer hnest
  have hvisible : (t.step (.put ref value)).2.nest.visible = t.nest.visible := by
    rw [hnest]
    rfl
  refine ⟨(t.step (.put ref value)).2, Prod.ext hanswer rfl, fun other name v hv => ?_,
    fun other name hv => ?_, fun other name arity => ?_⟩
  · rcases t.exists_sees_or other with ⟨others, hothers⟩ | hother
    · have hothers' : (t.step (.put ref value)).2.Sees other others := by rwa [Sees, hvisible]
      rw [ht'.variableFrom_eq_ok hothers', hnest,
        Nest.findVariable?_setVariable, (ht.variableFrom_eq_ok hothers).mp hv]
      simp
    · rw [variableFrom_of_not_sees hother] at hv
      cases hv
  · refine ht.variableFrom_congr ht' hvisible fun others hothers => ?_
    rw [hnest, Nest.findVariable?_setVariable]
    cases hfound : t.nest.findVariable? others name with
    | none => rfl
    | some found =>
      have hne : found.1 ≠ ref := by
        rintro rfl
        exact hv found.2 ((ht.variableFrom_eq_ok hothers).mpr hfound)
      rw [Option.map_some, if_neg hne]
  · refine ht.functionFrom_congr ht' hvisible fun _ _ => ?_
    rw [hnest]
    rfl

/-- A failed operation leaves the tree alone if it does so in the scope. -/
theorem inScope_failed {f : Env → Except Fault (Answer β) × ScopeTree β} {e : Fault}
    (h : (t.inScope scope f).1 = .error e) (hf : ∀ env, (f env).1 = .error e → (f env).2 = t) :
    (t.inScope scope f).2 = t := by
  cases henv : t.envs[scope]? with
  | some env =>
    rw [inScope_of_some henv] at h ⊢
    exact hf env h
  | none => rw [inScope_of_none henv]

theorem step_failed {op : Op β} {e : Fault} (h : (t.step op).1 = .error e) :
    (t.step op).2 = t := by
  cases op with
  | child scope => exact inScope_failed h fun env hf => nomatch hf
  | defineVariable scope v =>
    refine inScope_failed h fun env hf => ?_
    by_cases hbound : ((t.store.scope env.scope).variableNamed? v.name).isSome
    · rw [inStore_bind_of_error (if_pos hbound)]
    · rw [inStore_bind_of_ok (if_neg hbound)] at hf
      cases hf
  | defineFunction scope f =>
    refine inScope_failed h fun env hf => ?_
    by_cases hbound : ((t.store.scope env.scope).functionNamed? f.name f.arity).isSome
    · rw [inStore_bind_of_error (if_pos hbound)]
    · rw [inStore_bind_of_ok (if_neg hbound)] at hf
      cases hf
  | lookupVariable scope name =>
    refine inScope_failed h fun env _ => ?_
    rw [inStore_lookupVariable]
    cases t.nest.findVariable? env.visible name <;> rfl
  | lookupFunction scope name arity =>
    refine inScope_failed h fun env _ => ?_
    rw [inStore_lookupFunction]
    cases t.nest.findFunction? env.visible name arity <;> rfl
  | assign scope name value =>
    refine inScope_failed h fun env hf => ?_
    rw [inStore_lookupVariable] at hf ⊢
    cases hfound : t.nest.findVariable? env.visible name with
    | none => rfl
    | some found =>
      rw [hfound] at hf
      cases hf
  | put ref value => cases h

theorem step_lookupVariable (t : ScopeTree β) (scope : ScopeId) (name : Name) :
    (t.step (.lookupVariable scope name)).2 = t := by
  show (t.inScope scope _).2 = t
  cases henv : t.envs[scope]? with
  | some env =>
    rw [inScope_of_some henv, inStore_lookupVariable]
    cases t.nest.findVariable? env.visible name <;> rfl
  | none => rw [inScope_of_none henv]

theorem step_lookupFunction (t : ScopeTree β) (scope : ScopeId) (name : Name) (arity : Nat) :
    (t.step (.lookupFunction scope name arity)).2 = t := by
  show (t.inScope scope _).2 = t
  cases henv : t.envs[scope]? with
  | some env =>
    rw [inScope_of_some henv, inStore_lookupFunction]
    cases t.nest.findFunction? env.visible name arity <;> rfl
  | none => rw [inScope_of_none henv]

/-- Scopes are only ever added. -/
theorem Nest.visible_step {n : Nest β} (op : Op β) (h : n.visible[scope]? = some scopes) :
    (n.step op).2.visible[scope]? = some scopes := by
  cases op <;> simp only [Nest.step, Nest.inScope, Nest.setVariable] <;> repeat' split
  any_goals exact h
  rw [List.getElem?_append_left (List.getElem?_eq_some_iff.mp h).1]
  exact h

theorem assign_law (t : ScopeTree β) (scope : ScopeId) (name : Name) (value : Value) :
    (∀ ref v, t.variableFrom scope name = .ok (.foundVariable ref v) →
      t.step (.assign scope name value) = t.step (.put ref value)) ∧
    ∀ e, t.variableFrom scope name = .error e →
      t.step (.assign scope name value) = (.error e, t) := by
  show (∀ ref v, (t.inScope scope _).1 = _ → t.inScope scope _ = _) ∧
    ∀ e, (t.inScope scope _).1 = _ → t.inScope scope _ = _
  cases henv : t.envs[scope]? with
  | some env =>
    rw [inScope_of_some henv, inScope_of_some henv, inStore_lookupVariable, inStore_lookupVariable]
    cases t.nest.findVariable? env.visible name with
    | some found =>
      refine ⟨fun ref v h => ?_, fun e h => ?_⟩
      · cases h
        rfl
      · cases h
    | none =>
      refine ⟨fun ref v h => ?_, fun e h => ?_⟩
      · cases h
      · cases h
        rfl
  | none =>
    rw [inScope_of_none henv]
    refine ⟨fun ref v h => ?_, fun e h => ?_⟩
    · cases h
    · cases h

/-- A function that is found can be called with as many arguments as were asked for. -/
theorem Sound.arity_law (ht : t.Sound) {ref : FunctionRef} {f : Function β}
    (h : t.functionFrom scope name arity = .ok (.foundFunction ref f)) :
    f.parameterTypes.length = arity ∧
      ∀ name' expected received, f.bodyFor arity ≠ .error (.argumentCount name' expected received) := by
  rcases t.exists_sees_or scope with ⟨scopes, hscopes⟩ | hscope
  · rw [ht.functionFrom_eq_ok hscopes, Nest.findFunction?, findSome?_binding_eq_some] at h
    obtain ⟨id, rfl, -, hf⟩ := h
    have harity : f.arity = arity := by
      have hkey := List.find?_some (show (t.store.scope id).functionNamed? name arity = some f from hf)
      simp only [Bool.and_eq_true, decide_eq_true_eq] at hkey
      exact hkey.2
    refine ⟨harity, fun name' expected received => ?_⟩
    unfold Function.bodyFor
    split
    · exact nofun
    · rw [if_pos harity.symm]
      exact nofun
  · rw [functionFrom_of_not_sees hscope] at h
    cases h

theorem Sound.variableFrom_eq_error (ht : t.Sound) (h : t.Sees scope scopes) {e : Fault} :
    t.variableFrom scope name = .error e ↔
      e = .undeclaredVariable name ∧ ∀ id ∈ scopes, t.store.variableAt? ⟨id, name⟩ = none := by
  rw [ht.variableFrom_eq h]
  have hnone : t.nest.findVariable? scopes name = none ↔
      ∀ id ∈ scopes, t.store.variableAt? ⟨id, name⟩ = none :=
    findSome?_binding_eq_none (r := fun id => (⟨id, name⟩ : VariableRef))
  rw [← hnone]
  cases t.nest.findVariable? scopes name <;> simp [eq_comm]

theorem Sound.functionFrom_eq_error (ht : t.Sound) (h : t.Sees scope scopes) {e : Fault} :
    t.functionFrom scope name arity = .error e ↔
      e = .undeclaredFunction name arity ∧
        ∀ id ∈ scopes, t.store.functionAt? ⟨id, name, arity⟩ = none := by
  rw [ht.functionFrom_eq h]
  have hnone : t.nest.findFunction? scopes name arity = none ↔
      ∀ id ∈ scopes, t.store.functionAt? ⟨id, name, arity⟩ = none :=
    findSome?_binding_eq_none (r := fun id => (⟨id, name, arity⟩ : FunctionRef))
  rw [← hnone]
  cases t.nest.findFunction? scopes name arity <;> simp [eq_comm]

theorem Sound.defineVariable_eq_error (ht : t.Sound) (h : t.Sees scope scopes) {v : Variable}
    {e : Fault} : (t.step (.defineVariable scope v)).1 = .error e ↔
      e = .duplicateVariable v.name ∧ t.store.variableAt? ⟨scope, v.name⟩ ≠ none := by
  by_cases hbound : t.store.variableAt? ⟨scope, v.name⟩ = none
  · obtain ⟨t', hstep, -⟩ := ht.defineVariable_law h hbound
    simp [hstep, hbound]
  · have hstep : (t.step (.defineVariable scope v)).1 = .error (.duplicateVariable v.name) := by
      rw [congrArg Prod.fst (step_nest ht (.defineVariable scope v)).1, Nest.step, Nest.inScope,
        show t.nest.visible[scope]? = some scopes from h]
      exact congrArg Prod.fst (if_pos (Option.isSome_iff_ne_none.mpr hbound))
    rw [hstep]
    simp [hbound, eq_comm]

theorem Sound.defineFunction_eq_error (ht : t.Sound) (h : t.Sees scope scopes) {f : Function β}
    {e : Fault} : (t.step (.defineFunction scope f)).1 = .error e ↔
      e = .duplicateFunction f.name f.arity ∧
        t.store.functionAt? ⟨scope, f.name, f.arity⟩ ≠ none := by
  by_cases hbound : t.store.functionAt? ⟨scope, f.name, f.arity⟩ = none
  · obtain ⟨t', hstep, -⟩ := ht.defineFunction_law h hbound
    simp [hstep, hbound]
  · have hstep : (t.step (.defineFunction scope f)).1 =
        .error (.duplicateFunction f.name f.arity) := by
      rw [congrArg Prod.fst (step_nest ht (.defineFunction scope f)).1, Nest.step, Nest.inScope,
        show t.nest.visible[scope]? = some scopes from h]
      exact congrArg Prod.fst (if_pos (Option.isSome_iff_ne_none.mpr hbound))
    rw [hstep]
    simp [hbound, eq_comm]

/-- **The laws hold** of every tree whose scopes are those of its store. -/
theorem Sound.laws (ht : t.Sound) : t.Laws where
  variableFrom_eq_ok {scope scopes name ref v} h := by
    rw [ht.variableFrom_eq_ok h, Nest.findVariable?, findSome?_binding_eq_some]
    constructor
    · rintro ⟨id, rfl, hreaches, hv⟩
      exact ⟨rfl, hreaches, hv⟩
    · rintro ⟨rfl, hreaches, hv⟩
      exact ⟨ref.scope, rfl, hreaches, hv⟩
  variableFrom_eq_error h := ht.variableFrom_eq_error h
  functionFrom_eq_ok {scope scopes name arity ref f} h := by
    rw [ht.functionFrom_eq_ok h, Nest.findFunction?, findSome?_binding_eq_some]
    constructor
    · rintro ⟨id, rfl, hreaches, hf⟩
      exact ⟨⟨rfl, rfl⟩, hreaches, hf⟩
    · rintro ⟨⟨rfl, rfl⟩, hreaches, hf⟩
      exact ⟨ref.scope, rfl, hreaches, hf⟩
  functionFrom_eq_error h := ht.functionFrom_eq_error h
  arity h := ht.arity_law h
  defineVariable_eq_error h := ht.defineVariable_eq_error h
  defineFunction_eq_error h := ht.defineFunction_eq_error h
  failed h := step_failed h
  lookups := ⟨step_lookupVariable t _ _, step_lookupFunction t _ _ _⟩
  sees {op scope scopes} h := by
    rw [Sees, show (t.step op).2.nest = (t.nest.step op).2 from congrArg Prod.snd (step_nest ht op).1]
    exact Nest.visible_step op h
  child h := ht.child_law h
  defineVariable h hnew := ht.defineVariable_law h hnew
  defineFunction h hnew := ht.defineFunction_law h hnew
  assign := assign_law t _ _ _
  put := ht.put_law

/-- **The scopes of a tree are nested finite maps.** Whatever is done with them, beginning with one
empty scope, gives what it gives for nested maps, and ends with a tree that has the maps with which
that ends; and the laws hold of it. -/
theorem run_laws (ops : List (Op β)) :
    (((root : ScopeTree β).run ops).1, ((root : ScopeTree β).run ops).2.nest) = Nest.root.run ops ∧
      ((root : ScopeTree β).run ops).2.Laws := by
  obtain ⟨hrun, hsound⟩ := run_nest root_sound ops
  rw [nest_root] at hrun
  exact ⟨hrun, hsound.laws⟩

/-- A variable that is shadowed in an inner scope, and an assignment from there to another one. -/
example :
    ((root : ScopeTree Unit).run
      [.defineVariable 0 { name := "x", value := .integer 1 },
        .defineVariable 0 { name := "y", value := .integer 2 }, .child 0,
        .defineVariable 1 { name := "x", value := .integer 3 },
        .assign 1 "y" (.integer 4), .assign 1 "x" (.integer 5)]).2.store.variableAt? ⟨0, "x"⟩ =
      some { name := "x", value := .integer 1 } := by
  decide

end ScopeTree

end PlcLang
