import PlcLang.Proofs.Walk

/-!
# The store after an operation

What each operation on the store leaves as it is, and what it changes.

* `Store.scope_modifyScope`, `Store.rel_scope_modifyScope`, `Store.scope_child`: the scopes afterwards.
* `Store.variableAt?_setVariable`: the variables after an assignment.
* `Store.Extends`: no binding is lost.
-/

namespace PlcLang

variable {β ρ : Type}

namespace Store

variable {s t : Store β} {id i : ScopeId} {f : Scope β → Scope β}

/-! ## Scopes -/

@[simp] theorem size_modifyScope : (s.modifyScope id f).scopes.size = s.scopes.size := by
  simp [modifyScope]

theorem scope_modifyScope (h : id < s.scopes.size) :
    (s.modifyScope id f).scope id = f (s.scope id) := by
  simp [modifyScope, scope, Array.getD_eq_getD_getElem?, h, Array.getElem_modify_self]

theorem scope_modifyScope_of_ne (h : i ≠ id) : (s.modifyScope id f).scope i = s.scope i := by
  simp [modifyScope, scope, Array.getD_eq_getD_getElem?, Array.getElem?_modify, h.symm]

theorem scope_modifyScope_of_ge (h : s.scopes.size ≤ id) : (s.modifyScope id f).scope i = s.scope i := by
  by_cases hi : i = id
  · subst hi
    have h' : (s.scopes.modify i f).size ≤ i := by simpa using h
    simp only [modifyScope, scope, Array.getD_eq_getD_getElem?, Array.getElem?_eq_none h,
      Array.getElem?_eq_none h']
  · exact scope_modifyScope_of_ne hi

/-- Every scope is to what it was as the changed one is. -/
theorem rel_scope_modifyScope {R : Scope β → Scope β → Prop} (hrefl : ∀ sc, R sc sc)
    (hf : R (s.scope id) (f (s.scope id))) (i : ScopeId) :
    R (s.scope i) ((s.modifyScope id f).scope i) := by
  by_cases hsize : s.scopes.size ≤ id
  · rw [scope_modifyScope_of_ge hsize]
    exact hrefl _
  · by_cases hi : i = id
    · subst hi
      rwa [scope_modifyScope (Nat.lt_of_not_le hsize)]
    · rw [scope_modifyScope_of_ne hi]
      exact hrefl _

theorem modifyScope_of_forall_eq (h : ∀ sc, f sc = sc) : s.modifyScope id f = s := by
  have hf : f = fun sc => sc := funext h
  have hscopes : s.scopes.modify id f = s.scopes := by
    refine Array.ext_getElem? fun i => ?_
    rw [Array.getElem?_modify, hf, Option.map_id', ite_self]
  rw [modifyScope, hscopes]

theorem modifyScope_modifyScope {g : Scope β → Scope β} :
    (s.modifyScope id f).modifyScope id g = s.modifyScope id (g ∘ f) := by
  have hscopes : (s.scopes.modify id f).modify id g = s.scopes.modify id (g ∘ f) := by
    refine Array.ext_getElem? fun i => ?_
    simp only [Array.getElem?_modify]
    split
    · rw [Option.map_map]
    · rfl
  rw [modifyScope, modifyScope, modifyScope, hscopes]

@[simp] theorem size_child (env : Env) : (s.child env).2.scopes.size = s.scopes.size + 1 := by
  simp [child]

theorem scope_child (env : Env) (h : i < s.scopes.size) : (s.child env).2.scope i = s.scope i := by
  simp [child, scope, Array.getD_eq_getD_getElem?, Array.getElem?_push, Nat.ne_of_lt h]

@[simp] theorem scope_child_size (env : Env) : (s.child env).2.scope s.scopes.size = {} := by
  simp [child, scope, Array.getD_eq_getD_getElem?]

theorem scope_of_ge (h : s.scopes.size ≤ i) : s.scope i = {} := by
  simp [scope, Array.getD_eq_getD_getElem?, Array.getElem?_eq_none h]

/-! ## Lookups -/

/-- What a lookup finds is where the reference says. -/
theorem variableAt?_of_findVariable? {env : Env} {name : Name} {ref : VariableRef} {v : Variable}
    (h : s.findVariable? env name = some (ref, v)) : s.variableAt? ref = some v := by
  obtain ⟨id, _, hid⟩ := List.exists_of_findSome?_eq_some h
  obtain ⟨u, hu, he⟩ := Option.map_eq_some_iff.mp hid
  cases he
  exact hu

theorem functionAt?_of_findFunction? {env : Env} {name : Name} {arity : Nat} {ref : FunctionRef}
    {g : Function β} (h : s.findFunction? env name arity = some (ref, g)) :
    s.functionAt? ref = some g := by
  obtain ⟨id, _, hid⟩ := List.exists_of_findSome?_eq_some h
  obtain ⟨u, hu, he⟩ := Option.map_eq_some_iff.mp hid
  cases he
  exact hu

/-- A function that a lookup finds has as many parameters as it was looked up with. -/
theorem arity_of_findFunction? {env : Env} {name : Name} {arity : Nat} {ref : FunctionRef}
    {g : Function β} (h : s.findFunction? env name arity = some (ref, g)) : g.arity = arity := by
  obtain ⟨id, _, hid⟩ := List.exists_of_findSome?_eq_some h
  obtain ⟨u, hu, he⟩ := Option.map_eq_some_iff.mp hid
  cases he
  have hfound := List.find?_some hu
  simp only [Bool.and_eq_true, decide_eq_true_eq] at hfound
  exact hfound.2

theorem size_setVariable {ref : VariableRef} {value : Value} :
    (s.setVariable ref value).scopes.size = s.scopes.size := size_modifyScope

/-- The variables of a scope in which one was assigned to. -/
theorem variableNamed?_assigned {sc : Scope β} {name name' : Name} {value : Value} :
    Scope.variableNamed?
        { sc with «variables» :=
            sc.variables.map fun v => if v.name = name then { v with value } else v } name' =
      (sc.variableNamed? name').map fun v => if name' = name then { v with value } else v := by
  have hname (v : Variable) :
      (if v.name = name then { v with value } else v).name = v.name := by split <;> rfl
  unfold Scope.variableNamed?
  simp only [List.find?_map, Function.comp_def, hname]
  cases hfind : sc.variables.find? (·.name = name') with
  | none => rfl
  | some v =>
    have hv : v.name = name' := by simpa using List.find?_some hfind
    simp only [Option.map_some, hv]

/-- An assignment changes the value of the variable it refers to, and nothing else. -/
theorem variableAt?_setVariable {ref r : VariableRef} {value : Value} :
    (s.setVariable ref value).variableAt? r =
      (s.variableAt? r).map fun v => if r = ref then { v with value } else v := by
  have href : r = ref ↔ r.scope = ref.scope ∧ r.name = ref.name := by
    cases r
    cases ref
    simp
  unfold variableAt? setVariable
  by_cases hscope : r.scope = ref.scope
  · by_cases hsize : ref.scope < s.scopes.size
    · rw [hscope, scope_modifyScope hsize, variableNamed?_assigned]
      simp only [href, hscope, true_and]
    · rw [scope_modifyScope_of_ge (Nat.le_of_not_lt hsize), hscope,
        scope_of_ge (Nat.le_of_not_lt hsize)]
      rfl
  · rw [scope_modifyScope_of_ne hscope]
    simp only [href, hscope, false_and, if_false, Option.map_id']

theorem functionAt?_setVariable {ref : VariableRef} {r : FunctionRef} {value : Value} :
    (s.setVariable ref value).functionAt? r = s.functionAt? r :=
  rel_scope_modifyScope
    (R := fun sc sc' => sc'.functionNamed? r.name r.arity = sc.functionNamed? r.name r.arity)
    (fun _ => rfl) rfl r.scope

/-! ## Bindings -/

/-- Every binding of `s` is one of `t`. -/
structure Extends (s t : Store β) : Prop where
  /-- No variable is lost. -/
  variableAt? {ref v} : s.variableAt? ref = some v → t.variableAt? ref = some v
  /-- No function is lost. -/
  functionAt? {ref f} : s.functionAt? ref = some f → t.functionAt? ref = some f

theorem Extends.refl (s : Store β) : s.Extends s := ⟨fun h => h, fun h => h⟩

theorem Extends.trans {u : Store β} (h : s.Extends t) (k : t.Extends u) : s.Extends u :=
  ⟨fun hv => k.variableAt? (h.variableAt? hv), fun hf => k.functionAt? (h.functionAt? hf)⟩

/-- A new scope is empty, like every scope that is not there. -/
theorem scope_child_eq {env : Env} : (s.child env).2.scope i = s.scope i := by
  rcases Nat.lt_trichotomy i s.scopes.size with hi | rfl | hi
  · exact scope_child env hi
  · rw [scope_child_size, scope_of_ge (Nat.le_refl _)]
  · rw [scope_of_ge (Nat.le_of_lt hi), scope_of_ge (by rw [size_child]; exact hi)]

theorem extends_child (env : Env) : s.Extends (s.child env).2 ∧ (s.child env).2.Extends s := by
  refine ⟨⟨fun {ref v} hv => ?_, fun {ref v} hv => ?_⟩, fun {ref v} hv => ?_, fun {ref v} hv => ?_⟩
  · rwa [Store.variableAt?, scope_child_eq]
  · rwa [Store.functionAt?, scope_child_eq]
  · rwa [Store.variableAt?, scope_child_eq] at hv
  · rwa [Store.functionAt?, scope_child_eq] at hv

theorem Extends.modifyScope
    (hv : ∀ sc name v, sc.variableNamed? name = some v → (f sc).variableNamed? name = some v)
    (hf : ∀ sc name n g, sc.functionNamed? name n = some g → (f sc).functionNamed? name n = some g) :
    s.Extends (s.modifyScope id f) where
  variableAt? {ref v} :=
    rel_scope_modifyScope
      (R := fun sc sc' => sc.variableNamed? ref.name = some v → sc'.variableNamed? ref.name = some v)
      (fun _ h => h) (hv _ ref.name v) ref.scope
  functionAt? {ref g} :=
    rel_scope_modifyScope
      (R := fun sc sc' => sc.functionNamed? ref.name ref.arity = some g →
        sc'.functionNamed? ref.name ref.arity = some g)
      (fun _ h => h) (hf _ ref.name ref.arity g) ref.scope

/-- A store that a scope changes in still has no more bindings than `t` if the scope has not. -/
theorem Extends.of_modifyScope (h : s.Extends t)
    (hv : ∀ name v, (f (s.scope id)).variableNamed? name = some v →
      t.variableAt? ⟨id, name⟩ = some v)
    (hf : ∀ name n g, (f (s.scope id)).functionNamed? name n = some g →
      t.functionAt? ⟨id, name, n⟩ = some g) :
    (s.modifyScope id f).Extends t := by
  by_cases hid : s.scopes.size ≤ id
  · refine ⟨fun {ref v} k => h.variableAt? ?_, fun {ref v} k => h.functionAt? ?_⟩
    · rwa [Store.variableAt?, scope_modifyScope_of_ge hid] at k
    · rwa [Store.functionAt?, scope_modifyScope_of_ge hid] at k
  · refine ⟨fun {ref v} k => ?_, fun {ref v} k => ?_⟩
    · by_cases hi : ref.scope = id
      · rw [Store.variableAt?, hi, scope_modifyScope (Nat.lt_of_not_le hid)] at k
        have hat := hv _ _ k
        rwa [← hi] at hat
      · rw [Store.variableAt?, scope_modifyScope_of_ne hi] at k
        exact h.variableAt? k
    · by_cases hi : ref.scope = id
      · rw [Store.functionAt?, hi, scope_modifyScope (Nat.lt_of_not_le hid)] at k
        have hat := hf _ _ _ k
        rwa [← hi] at hat
      · rw [Store.functionAt?, scope_modifyScope_of_ne hi] at k
        exact h.functionAt? k

/-! ## What holds everywhere -/

section

variable {Q : Scope β → Prop} {R : Array Value → Prop}

/-- What holds of all scopes holds afterwards if it holds of the changed one. -/
theorem forall_scope_modifyScope {id : ScopeId} {f : Scope β → Scope β} (h : ∀ i, Q (s.scope i))
    (hf : Q (f (s.scope id))) (i : ScopeId) : Q ((s.modifyScope id f).scope i) :=
  rel_scope_modifyScope (R := fun sc sc' => Q sc → Q sc') (fun _ hsc => hsc) (fun _ => hf) i (h i)

theorem forall_list_newList {items : Array Value} (h : ∀ i, R (s.list i)) (hitems : R items)
    (i : ListId) : R ((s.newList items).2.list i) := by
  have hi := h i
  unfold list newList at *
  rw [Array.getD_eq_getD_getElem?] at hi ⊢
  rw [Array.getElem?_push]
  split
  · exact hitems
  · exact hi

theorem forall_list_setItem {id : ListId} {index : Nat} {value : Value} (h : ∀ i, R (s.list i))
    (hvalue : R ((s.list id).setIfInBounds index value)) (i : ListId) :
    R ((s.setItem id index value).list i) := by
  have hi := h i
  unfold list setItem at *
  rw [Array.getD_eq_getD_getElem?] at hi hvalue ⊢
  rw [Array.getElem?_modify]
  split
  next hid =>
    subst hid
    cases hget : s.lists[id]? with
    | none =>
      rw [hget] at hi
      exact hi
    | some items =>
      rw [hget] at hvalue
      exact hvalue
  next => exact hi

end

/-! ## Equality -/

/-- The values that have a type, or none because they are lists. -/
theorem typeOf_cases {v : Value} {t : Option Ty} (h : s.typeOf v = .ok t) :
    (∃ a σ, v = .scalar a ∧ a.type? = some σ ∧ t = some σ) ∨ ∃ i, v = .list i ∧ t = none := by
  have hraise (h : (do .error (.raised (.foreignValue (← s.quoted v))) : Except Stop (Option Ty)) = .ok t) :
      False := by
    cases hv : s.quoted v <;> simp [hv, bind, Except.bind] at h
  unfold typeOf at h
  split at h
  next a =>
    split at h
    next σ hσ =>
      cases h
      exact .inl ⟨a, σ, rfl, hσ, rfl⟩
    next => exact (hraise h).elim
  next i =>
    cases h
    exact .inr ⟨i, rfl, rfl⟩
  next => exact (hraise h).elim

/-- Lists are compared or not as their items are. -/
theorem exists_of_allEqual_eq_error {equal : Value → Value → Except Stop Bool} {ls rs : List Value}
    {e : Stop} (h : allEqual equal ls rs = .error e) : ∃ l ∈ ls, ∃ r ∈ rs, equal l r = .error e := by
  induction ls generalizing rs with
  | nil => cases h
  | cons l ls ih =>
    cases rs with
    | nil => cases h
    | cons r rs =>
      rw [allEqual] at h
      cases hlr : equal l r with
      | error e' =>
        rw [hlr] at h
        cases h
        exact ⟨l, List.mem_cons_self, r, List.mem_cons_self, hlr⟩
      | ok b =>
        rw [hlr] at h
        cases b with
        | true =>
          obtain ⟨v, hv, w, hw, he⟩ := ih h
          exact ⟨v, List.mem_cons_of_mem _ hv, w, List.mem_cons_of_mem _ hw, he⟩
        | false => cases h

end Store

/-! ## States -/

namespace State

variable {s : State β ρ}

theorem size_opened (s : State β ρ) : s.opened.store.scopes.size = s.store.scopes.size + 1 :=
  Store.size_child s.env

theorem extends_opened (s : State β ρ) : s.store.Extends s.opened.store :=
  (Store.extends_child s.env).1

theorem opened_extends (s : State β ρ) : s.opened.store.Extends s.store :=
  (Store.extends_child s.env).2

theorem extends_withVariable (s : State β ρ) (v : Variable) :
    s.store.Extends (s.withVariable v).store := by
  refine Store.Extends.modifyScope (fun sc name u hu => ?_) (fun _ _ _ _ h => h)
  unfold Scope.variableNamed? at hu ⊢
  rw [List.find?_append, hu, Option.some_or]

theorem extends_withFunction (s : State β ρ) (f : Function β) :
    s.store.Extends (s.withFunction f).store := by
  refine Store.Extends.modifyScope (fun _ _ _ h => h) (fun sc name n g hg => ?_)
  unfold Scope.functionNamed? at hg ⊢
  rw [List.find?_append, hg, Option.some_or]

theorem withVariable_extends {v : Variable} {t : Store β} (h : s.store.Extends t)
    (hv : t.variableAt? ⟨s.env.scope, v.name⟩ = some v) : (s.withVariable v).store.Extends t := by
  refine h.of_modifyScope (fun name u hu => ?_) (fun name n g hg => h.functionAt? hg)
  rw [Scope.variableNamed?, List.find?_append] at hu
  rcases Option.or_eq_some_iff.mp hu with hu | ⟨-, hu⟩
  · exact h.variableAt? hu
  · obtain ⟨hname, rfl⟩ : v.name = name ∧ v = u := by simpa [List.find?_singleton] using hu
    exact hname ▸ hv

theorem withFunction_extends {f : Function β} {t : Store β} (h : s.store.Extends t)
    (hf : t.functionAt? ⟨s.env.scope, f.name, f.arity⟩ = some f) :
    (s.withFunction f).store.Extends t := by
  refine h.of_modifyScope (fun name u hu => h.variableAt? hu) (fun name n g hg => ?_)
  rw [Scope.functionNamed?, List.find?_append] at hg
  rcases Option.or_eq_some_iff.mp hg with hg | ⟨-, hg⟩
  · exact h.functionAt? hg
  · obtain ⟨⟨hname, harity⟩, rfl⟩ : (f.name = name ∧ f.arity = n) ∧ f = g := by
      simpa [List.find?_singleton] using hg
    exact hname ▸ harity ▸ hf

end State

end PlcLang
