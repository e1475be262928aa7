import PlcLang.Walk

/-!
# How walks end

When a walk ends with a result, and in which state, for every way to build a walk. Some things hold of
the state in which a walk ends whether there is a result or not.

* `Walk.after`: the state in which a walk ends.
* `Walk.Still`: walks that leave the state alone.
* `Walk.bind_eq_ok`: one walk after another.
* `Walk.lookupVariable_eq_ok`, `Walk.defineVariable_eq_ok`, …: the operations on scopes.
* `Walk.lookupVariable_of_none`, `Walk.defineVariable_of_some`, …: their errors.
* `State.opened`, `State.leaving`, `Walk.inChild_eq_ok`: blocks.
-/

namespace PlcLang

variable {β ρ α γ : Type}

/-! ## Opening and leaving scopes -/

namespace State

/-- The state inside a new scope that lies in `outer`. -/
def openedIn (s : State β ρ) (outer : Env) : State β ρ :=
  ⟨(s.store.child outer).2, (s.store.child outer).1, s.register⟩

/-- The state inside a new scope that lies in the active one. -/
def opened (s : State β ρ) : State β ρ := s.openedIn s.env

/-- The state with another active environment. -/
def leaving (s : State β ρ) (env : Env) : State β ρ := { s with env }

/-- The state with another variable in the active scope. -/
def withVariable (s : State β ρ) (v : Variable) : State β ρ :=
  { s with store := s.store.modifyScope s.env.scope fun sc =>
      { sc with «variables» := sc.variables ++ [v] } }

/-- The state with another function in the active scope. -/
def withFunction (s : State β ρ) (f : Function β) : State β ρ :=
  { s with store := s.store.modifyScope s.env.scope fun sc =>
      { sc with functions := sc.functions ++ [f] } }

end State

theorem Located.attach_of_isPresent {n : Node} {f : Fault} {line column : Option Int}
    (h : n.isPresent = true) :
    (Located.mk f none line column).attach n = match line with
      | some _ => ⟨f, some n, line, column⟩
      | none => ⟨f, some n, n.place.line, n.place.column⟩ := by
  cases n <;> cases h <;> cases line <;> rfl

/-- The stop, with a node for a fault that has none. -/
def Stop.attach (node : Node) : Stop → Stop
  | .fault e => .fault (e.attach node)
  | e => e

namespace Walk

variable {s s' : State β ρ} {a b : α}

/-! ## Results -/

@[simp] theorem pure_eq_ok : (pure a : Walk β ρ α) s = .ok b s' ↔ a = b ∧ s = s' := by
  change EStateM.Result.ok a s = .ok b s' ↔ _
  rw [EStateM.Result.ok.injEq]

@[simp] theorem bind_eq_ok {x : Walk β ρ γ} {f : γ → Walk β ρ α} :
    (x >>= f) s = .ok a s' ↔ ∃ c t, x s = .ok c t ∧ f c t = .ok a s' := by
  change EStateM.bind x f s = _ ↔ _
  unfold EStateM.bind
  cases x s <;> simp [and_assoc]

theorem bind_of_eq_ok {x : Walk β ρ γ} {f : γ → Walk β ρ α} {c : γ} (h : x s = .ok c s') :
    (x >>= f) s = f c s' := by
  change EStateM.bind x f s = _
  rw [EStateM.bind, h]

theorem bind_of_eq_error {x : Walk β ρ γ} {f : γ → Walk β ρ α} {e : Stop}
    (h : x s = .error e s') : (x >>= f) s = .error e s' := by
  change EStateM.bind x f s = _
  rw [EStateM.bind, h]

/-- Of two walks one after the other, either may end early. -/
theorem bind_eq_error {x : Walk β ρ γ} {f : γ → Walk β ρ α} {e : Stop} :
    (x >>= f) s = .error e s' ↔ x s = .error e s' ∨ ∃ c t, x s = .ok c t ∧ f c t = .error e s' := by
  change EStateM.bind x f s = _ ↔ _
  unfold EStateM.bind
  cases x s <;> simp [and_assoc]

@[simp] theorem map_eq_ok {x : Walk β ρ γ} {f : γ → α} :
    (f <$> x) s = .ok a s' ↔ ∃ c, x s = .ok c s' ∧ f c = a := by
  change EStateM.map f x s = _ ↔ _
  unfold EStateM.map
  cases x s <;> simp [and_assoc, and_comm (a := f _ = a)]

@[simp] theorem get_eq_ok {t : State β ρ} :
    (get : Walk β ρ (State β ρ)) s = .ok t s' ↔ s = t ∧ s = s' := by
  change EStateM.Result.ok s s = .ok t s' ↔ _
  rw [EStateM.Result.ok.injEq]

@[simp] theorem throw_eq_ok {e : Stop} : (throw e : Walk β ρ α) s ≠ .ok a s' := by
  change EStateM.Result.error e s ≠ .ok a s'
  exact nofun

@[simp] theorem raise_eq_ok {f : Fault} : (raise f : Walk β ρ α) s ≠ .ok a s' := throw_eq_ok

@[simp] theorem lift_eq_ok {x : Except Fault α} : lift x s = .ok a s' ↔ x = .ok a ∧ s = s' := by
  cases x <;> simp [lift]

@[simp] theorem require_eq_ok {c : Bool} {f : Fault} {u : Unit} :
    require c f s = .ok u s' ↔ c = true ∧ s = s' := by
  cases c <;> simp [require]

@[simp] theorem part_eq_ok {o : Option α} : part o s = .ok a s' ↔ o = some a ∧ s = s' := by
  cases o <;> simp [part]

@[simp] theorem attached_eq_ok {node : Node} {x : Walk β ρ α} :
    attached node x s = .ok a s' ↔ x s = .ok a s' := by
  unfold attached
  split <;> simp_all

@[simp] theorem reading_eq_ok {f : Store β → Except Stop α} :
    reading f s = .ok a s' ↔ f s.store = .ok a ∧ s = s' := by
  unfold reading
  split <;> simp_all

/-! ## Scopes -/

@[simp] theorem inChild_eq_ok {x : Walk β ρ α} :
    inChild x s = .ok a s' ↔ ∃ t, x s.opened = .ok a t ∧ s' = t.leaving s.env := by
  change inChildOf s.env x s = _ ↔ _
  unfold inChildOf State.opened State.openedIn
  dsimp only
  cases x ⟨(s.store.child s.env).2, (s.store.child s.env).1, s.register⟩ with
  | ok c t => simp [State.leaving, and_assoc, eq_comm]
  | error e t => simp

@[simp] theorem lookupVariable_eq_ok {name : Name} {found : VariableRef × Variable} :
    lookupVariable name s = .ok found s' ↔
      s.store.findVariable? s.env name = some found ∧ s = s' := by
  unfold lookupVariable inStore Store.lookupVariable
  cases h : s.store.findVariable? s.env name <;> simp [h]

@[simp] theorem lookupFunction_eq_ok {name : Name} {arity : Nat} {found : FunctionRef × Function β} :
    lookupFunction name arity s = .ok found s' ↔
      s.store.findFunction? s.env name arity = some found ∧ s = s' := by
  unfold lookupFunction inStore Store.lookupFunction
  cases h : s.store.findFunction? s.env name arity <;> simp [h]

@[simp] theorem defineVariable_eq_ok {v : Variable} {ref : VariableRef} :
    defineVariable v s = .ok ref s' ↔
      (s.store.scope s.env.scope).variableNamed? v.name = none ∧ ref = ⟨s.env.scope, v.name⟩ ∧
        s' = s.withVariable v := by
  unfold defineVariable inStore Store.defineVariable
  cases h : (s.store.scope s.env.scope).variableNamed? v.name <;>
    simp [h, State.withVariable, eq_comm]

@[simp] theorem defineFunction_eq_ok {f : Function β} {ref : FunctionRef} :
    defineFunction f s = .ok ref s' ↔
      (s.store.scope s.env.scope).functionNamed? f.name f.arity = none ∧
        ref = ⟨s.env.scope, f.name, f.arity⟩ ∧ s' = s.withFunction f := by
  unfold defineFunction inStore Store.defineFunction
  cases h : (s.store.scope s.env.scope).functionNamed? f.name f.arity <;>
    simp [h, State.withFunction, eq_comm]

/-! ## Errors -/

theorem lookupVariable_of_none {name : Name} (h : s.store.findVariable? s.env name = none) :
    lookupVariable name s = .error (.raised (.undeclaredVariable name)) s := by
  simp [lookupVariable, inStore, Store.lookupVariable, h]

theorem lookupFunction_of_none {name : Name} {arity : Nat} (h : s.store.findFunction? s.env name arity = none) :
    lookupFunction name arity s = .error (.raised (.undeclaredFunction name arity)) s := by
  simp [lookupFunction, inStore, Store.lookupFunction, h]

theorem defineVariable_of_some {u v : Variable}
    (h : (s.store.scope s.env.scope).variableNamed? v.name = some u) :
    defineVariable v s = .error (.raised (.duplicateVariable v.name)) s := by
  simp [defineVariable, inStore, Store.defineVariable, h]

theorem defineFunction_of_some {f g : Function β}
    (h : (s.store.scope s.env.scope).functionNamed? f.name f.arity = some g) :
    defineFunction f s = .error (.raised (.duplicateFunction f.name f.arity)) s := by
  simp [defineFunction, inStore, Store.defineFunction, h]

theorem attached_of_eq_error {node : Node} {x : Walk β ρ α} {e : Stop} (h : x s = .error e s') :
    attached node x s = .error (e.attach node) s' := by
  unfold attached
  rw [h]
  cases e <;> rfl

theorem inChildOf_of_eq_ok {x : Walk β ρ α} {outer : Env} (h : x (s.openedIn outer) = .ok a s') :
    inChildOf outer x s = .ok a (s'.leaving s.env) := by
  unfold State.openedIn at h
  unfold inChildOf
  dsimp only
  rw [h]
  rfl

theorem inChildOf_of_eq_error {x : Walk β ρ α} {outer : Env} {e : Stop}
    (h : x (s.openedIn outer) = .error e s') : inChildOf outer x s = .error e (s'.leaving s.env) := by
  unfold State.openedIn at h
  unfold inChildOf
  dsimp only
  rw [h]
  rfl

/-- A block that ends early leaves its scope as well. -/
theorem inChildOf_eq_error {x : Walk β ρ α} {outer : Env} {e : Stop} :
    inChildOf outer x s = .error e s' ↔
      ∃ t, x (s.openedIn outer) = .error e t ∧ s' = t.leaving s.env := by
  cases hx : x (s.openedIn outer) with
  | ok a t => simp [inChildOf_of_eq_ok hx]
  | error e' t => simp [inChildOf_of_eq_error hx, and_assoc, eq_comm]

/-! ## Final states -/

/-- The state in which a walk ends, with a result or without. -/
def after (x : Walk β ρ α) (s : State β ρ) : State β ρ :=
  match x s with
  | .ok _ t | .error _ t => t

theorem after_of_ok {x : Walk β ρ α} (h : x s = .ok a s') : x.after s = s' := by
  unfold after
  rw [h]

theorem after_of_error {x : Walk β ρ α} {e : Stop} (h : x s = .error e s') : x.after s = s' := by
  unfold after
  rw [h]

/-- A walk that gives something ends in some state. -/
theorem exists_eq_ok_of_run' {x : Walk β ρ α} (h : EStateM.run' x s = some a) :
    ∃ s', x s = .ok a s' := by
  unfold EStateM.run' EStateM.run at h
  cases hx : x s with
  | ok b t =>
    rw [hx] at h
    cases h
    exact ⟨t, rfl⟩
  | error e t =>
    rw [hx] at h
    cases h

theorem after_bind_of_ok {x : Walk β ρ γ} {f : γ → Walk β ρ α} {c : γ} (h : x s = .ok c s') :
    (x >>= f).after s = (f c).after s' := by
  unfold after
  rw [bind_of_eq_ok h]

theorem after_bind_of_error {x : Walk β ρ γ} {f : γ → Walk β ρ α} {e : Stop}
    (h : x s = .error e s') : (x >>= f).after s = s' := by
  unfold after
  rw [bind_of_eq_error h]

theorem after_attached {x : Walk β ρ α} {node : Node} : (attached node x).after s = x.after s := by
  unfold after attached
  cases x s with
  | ok a t => rfl
  | error e t => cases e <;> rfl

theorem after_inChildOf {x : Walk β ρ α} {outer : Env} :
    (inChildOf outer x).after s = (x.after (s.openedIn outer)).leaving s.env := by
  unfold after inChildOf State.openedIn
  dsimp only
  cases x ⟨(s.store.child outer).2, (s.store.child outer).1, s.register⟩ <;> rfl

/-- However it ends, the walk leaves the state alone. -/
def Still (x : Walk β ρ α) : Prop := ∀ s, x.after s = s

namespace Still

theorem pure {a : α} : Still (pure a : Walk β ρ α) := fun _ => rfl

theorem throw {e : Stop} : Still (throw e : Walk β ρ α) := fun _ => rfl

theorem raise {f : Fault} : Still (raise f : Walk β ρ α) := throw

theorem get : Still (get : Walk β ρ (State β ρ)) := fun _ => rfl

theorem bind {x : Walk β ρ γ} {f : γ → Walk β ρ α} (h : Still x) (hf : ∀ c, Still (f c)) :
    Still (x >>= f) := by
  intro s
  have hs := h s
  cases hx : x s with
  | ok c t =>
    obtain rfl := (after_of_ok hx).symm.trans hs
    rw [after_bind_of_ok hx]
    exact hf c t
  | error e t =>
    rw [after_bind_of_error hx]
    exact (after_of_error hx).symm.trans hs

theorem ite {c : Prop} [Decidable c] {x y : Walk β ρ α} (h : Still x) (k : Still y) :
    Still (if c then x else y) := by
  split
  · exact h
  · exact k

theorem lift {x : Except Fault α} : Still (lift x : Walk β ρ α) := by
  cases x with
  | ok a => exact pure
  | error f => exact raise

theorem require {c : Bool} {f : Fault} : Still (require c f : Walk β ρ Unit) := ite pure raise

theorem part {o : Option α} : Still (part o : Walk β ρ α) := by
  cases o with
  | some a => exact pure
  | none => exact throw

theorem reading {f : Store β → Except Stop α} : Still (reading f : Walk β ρ α) := by
  intro s
  unfold after Walk.reading
  cases f s.store <;> rfl

theorem lookupVariable {name : Name} :
    Still (lookupVariable name : Walk β ρ (VariableRef × Variable)) := by
  intro s
  unfold after Walk.lookupVariable inStore Store.lookupVariable
  dsimp only
  cases s.store.findVariable? s.env name <;> rfl

theorem lookupFunction {name : Name} {arity : Nat} :
    Still (lookupFunction name arity : Walk β ρ (FunctionRef × Function β)) := by
  intro s
  unfold after Walk.lookupFunction inStore Store.lookupFunction
  dsimp only
  cases s.store.findFunction? s.env name arity <;> rfl

end Still

end Walk

end PlcLang
