import Mathlib.Data.List.Forall2
import Mathlib.Order.Defs.Unbundled
import PlcLang.Proofs.Shape
import PlcLang.Proofs.Store

/-!
# Scopes after a visit

Whether a walk succeeds or ends early, the active scope is the one that it was, and only that one has
new bindings.

* `Scope.Gains`, `State.Grows`: what a scope, and what a state, may have more than before.
* `Node.exposed`, `Node.HasOperands`: the parts of a tree that bind in the active scope.
* `Tidy`: walks that leave the scopes so, with one rule for every way to build a walk.
-/

namespace PlcLang

variable {β ρ α γ : Type}

/-! ## New bindings -/

/-- The variable without what it holds. -/
def Variable.emptied (v : Variable) : Variable := { v with value := .nil }

/-- The scope `sc'` has the bindings of `sc`, whose variables may hold other values, and after them
those in `vs` and in `fs`. -/
structure Scope.Gains (vs : List Variable) (fs : List (Function β)) (sc sc' : Scope β) : Prop where
  variables_eq : sc'.variables.map Variable.emptied = sc.variables.map Variable.emptied ++ vs
  functions_eq : sc'.functions = sc.functions ++ fs

/-- From `s` to `t` the active environment is the same, the registers are related, no scope is lost,
and no scope has gained a binding but the active one, which has gained `vs` and `fs`. -/
structure State.Grows (R : ρ → ρ → Prop) (vs : List Variable) (fs : List (Function β))
    (s t : State β ρ) : Prop where
  env_eq : t.env = s.env
  /-- What the walk keeps besides is related to what it was. -/
  register : R s.register t.register
  /-- No scope is lost. -/
  size_le : s.store.scopes.size ≤ t.store.scopes.size
  /-- The other scopes bind what they did. -/
  others : ∀ id < s.store.scopes.size, id ≠ s.env.scope →
    Scope.Gains [] [] (s.store.scope id) (t.store.scope id)
  /-- The active scope binds what it did, and more. -/
  active : Scope.Gains vs fs (s.store.scope s.env.scope) (t.store.scope s.env.scope)

theorem Scope.Gains.refl (sc : Scope β) : Scope.Gains [] [] sc sc :=
  ⟨(List.append_nil _).symm, (List.append_nil _).symm⟩

theorem Scope.Gains.trans {vs ws : List Variable} {fs gs : List (Function β)} {sc sc' sc'' : Scope β}
    (h : Scope.Gains vs fs sc sc') (k : Scope.Gains ws gs sc' sc'') :
    Scope.Gains (vs ++ ws) (fs ++ gs) sc sc'' :=
  ⟨by rw [k.variables_eq, h.variables_eq, List.append_assoc],
    by rw [k.functions_eq, h.functions_eq, List.append_assoc]⟩

namespace State.Grows

variable {R : ρ → ρ → Prop} {vs ws : List Variable} {fs gs : List (Function β)} {s t u : State β ρ}

theorem refl [Std.Refl R] (s : State β ρ) : Grows R [] [] s s :=
  ⟨rfl, Std.Refl.refl _, Nat.le_refl _, fun _ _ _ => .refl _, .refl _⟩

theorem trans [IsTrans ρ R] (h : Grows R vs fs s t) (k : Grows R ws gs t u) :
    Grows R (vs ++ ws) (fs ++ gs) s u where
  env_eq := k.env_eq.trans h.env_eq
  register := IsTrans.trans _ _ _ h.register k.register
  size_le := Nat.le_trans h.size_le k.size_le
  others id hid hne :=
    (h.others id hid hne).trans (k.others id (Nat.lt_of_lt_of_le hid h.size_le) (h.env_eq ▸ hne))
  active := h.active.trans (h.env_eq ▸ k.active)

/-- What is done in a new scope is not seen when that is left. -/
theorem leaving {outer : Env} (h : Grows R vs fs (s.openedIn outer) t)
    (hs : s.env.scope < s.store.scopes.size) : Grows R [] [] s (t.leaving s.env) := by
  have hkept (id : ScopeId) (hid : id < s.store.scopes.size) :
      Scope.Gains [] [] (s.store.scope id) (t.store.scope id) := by
    have hgains := h.others id (Nat.lt_of_lt_of_le hid (by simp [openedIn])) (Nat.ne_of_lt hid)
    rwa [openedIn, Store.scope_child_eq] at hgains
  exact ⟨rfl, h.register, Nat.le_trans (by simp [openedIn]) h.size_le, fun id hid _ => hkept id hid,
    hkept _ hs⟩

end State.Grows

/-! ## Nodes that bind -/

namespace Node

/-- The node binds the variable in the scope in which it is visited. -/
def BindsVariable (n : Node) (v : Variable) : Prop :=
  match n with
  | global name _ mutable _ _ place => v.name = name ∧ v.mutable = mutable ∧ v.origin = place
  | declaration name _ _ _ place => v.name = name ∧ v.mutable = some true ∧ v.origin = place
  | _ => False

/-- The node binds the function in the scope in which it is visited. -/
def BindsFunction (n : Node) (f : Function β) : Prop :=
  match n with
  | function name parameters _ _ _ _ place =>
    f.name = name ∧ f.arity = parameters.length ∧ f.origin = place
  | _ => False

mutual

/-- The nodes that bind in the active scope when a tree with expressions in the positions of
expressions is visited. A block has a scope of its own. -/
def exposed : Node → List Node
  | global name t mutable value b p => [global name t mutable value b p]
  | declaration name t value b p => [declaration name t value b p]
  | function name names types t ss b p => [function name names types t ss b p]
  | switch _ cases _ => allExposed cases
  | source gs fs => allExposed gs ++ allExposed fs
  | _ => []

/-- The nodes that bind in the active scope when several trees are visited. -/
def allExposed : List Node → List Node
  | [] => []
  | n :: ns => n.exposed ++ allExposed ns

end

/-- The node may stand where an expression is expected, present or not. -/
def isOperand : Node → Bool
  | missing | bare _ | literal .. | group .. | binary .. | access .. | call .. | listLiteral .. => true
  | _ => false

/-- The parts of a node at which an expression is expected. -/
def operands : Node → List Node
  | group e _ _ | expressionStatement e _ | returning e _ => [e]
  | binary _ l r _ _ | assignment l r _ => [l, r]
  | access _ offset _ _ _ => [offset]
  | call _ es _ _ _ | listLiteral es _ _ => es
  | declaration _ _ value _ _ | global _ _ _ value _ _ => [value]
  | conditional c _ _ _ | switch c _ _ | whileLoop c _ _ => [c]
  | case value _ _ => [value]
  | _ => []

/-- There are expressions in the positions of expressions. -/
def HasOperands (n : Node) : Prop := ∀ e ∈ n.operands, e.isOperand = true

theorem exposed_of_isOperand {n : Node} (h : n.isOperand = true) : n.exposed = [] := by
  cases n with
  | declaration | function | global | switch | source => cases h
  | _ => rfl

theorem allExposed_of_isOperand {ns : List Node} (h : ∀ n ∈ ns, n.isOperand = true) :
    allExposed ns = [] := by
  induction ns with
  | nil => rfl
  | cons n ns ih =>
    obtain ⟨hn, hns⟩ := List.forall_mem_cons.mp h
    rw [allExposed, exposed_of_isOperand hn, ih hns, List.nil_append]

theorem mem_operands_of_caseValue? {n value : Node} (h : n.caseValue? = some value) :
    value ∈ n.operands := by
  cases n <;> cases h
  case assignment => exact List.mem_cons_of_mem _ List.mem_cons_self
  all_goals exact List.mem_cons_self

theorem mem_children_of_mem_operands {n e : Node} (h : e ∈ n.operands) : e ∈ n.children := by
  cases n with
  | conditional | case | switch | whileLoop =>
    rw [List.mem_singleton.mp h]
    exact List.mem_cons_self
  | function | source => cases h
  | _ => exact h

/-- The operands of a node are operands, and so are theirs. -/
theorem Everywhere.operand {n e : Node} (h : n.Everywhere HasOperands) (he : e ∈ n.operands) :
    e.Everywhere HasOperands ∧ e.isOperand = true :=
  ⟨(everywhere_iff.mp h).2 e (mem_children_of_mem_operands he), (everywhere_iff.mp h).1 e he⟩

theorem exposed_sublist_allExposed {n : Node} {ns : List Node} (h : n ∈ ns) :
    n.exposed.Sublist (allExposed ns) := by
  induction h with
  | head ns => exact List.sublist_append_left _ _
  | tail m _ ih => exact ih.trans (List.sublist_append_right _ _)

end Node

/-- The bindings are made by some of the nodes, in their order and at most one by each. -/
def MadeBy (ns : List Node) (vs : List Variable) (fs : List (Function β)) : Prop :=
  (∃ ms, ms.Sublist ns ∧ List.Forall₂ Node.BindsVariable ms vs) ∧
    ∃ ms, ms.Sublist ns ∧ List.Forall₂ Node.BindsFunction ms fs

namespace MadeBy

variable {ns ms : List Node} {vs ws : List Variable} {fs gs : List (Function β)}

theorem nil (ns : List Node) : MadeBy (β := β) ns [] [] :=
  ⟨⟨[], List.nil_sublist _, .nil⟩, [], List.nil_sublist _, .nil⟩

theorem append (h : MadeBy ns vs fs) (k : MadeBy ms ws gs) :
    MadeBy (ns ++ ms) (vs ++ ws) (fs ++ gs) := by
  obtain ⟨⟨a, ha, hv⟩, b, hb, hf⟩ := h
  obtain ⟨⟨c, hc, hw⟩, d, hd, hg⟩ := k
  exact ⟨⟨a ++ c, ha.append hc, List.rel_append hv hw⟩, b ++ d, hb.append hd, List.rel_append hf hg⟩

theorem mono (h : MadeBy ns vs fs) (hs : ns.Sublist ms) : MadeBy ms vs fs := by
  obtain ⟨⟨a, ha, hv⟩, b, hb, hf⟩ := h
  exact ⟨⟨a, ha.trans hs, hv⟩, b, hb.trans hs, hf⟩

end MadeBy

/-! ## Tidy walks -/

/-- However the walk ends, scopes have gained nothing but the bindings of the active one; if `p`
holds, those are made by nodes of `ns`. -/
def Tidy (R : ρ → ρ → Prop) (p : Prop) (ns : List Node) (x : Walk β ρ α) : Prop :=
  ∀ s : State β ρ, s.env.scope < s.store.scopes.size →
    ∃ vs fs, State.Grows R vs fs s (x.after s) ∧ (p → MadeBy ns vs fs)

namespace Tidy

open Walk

variable {R : ρ → ρ → Prop} {p q : Prop} {ns ms : List Node}

/-- The nodes that may bind are needed only if `p` holds. -/
theorem mono {x : Walk β ρ α} (h : Tidy R q ms x) (hp : p → q ∧ ms.Sublist ns) : Tidy R p ns x := by
  intro s hs
  obtain ⟨vs, fs, hgrows, hmade⟩ := h s hs
  exact ⟨vs, fs, hgrows, fun hp' => (hmade (hp hp').1).mono (hp hp').2⟩

theorem of_still [Std.Refl R] {x : Walk β ρ α} (h : Still x) : Tidy R p ns x :=
  fun s _ => ⟨[], [], (h s).symm ▸ .refl s, fun _ => .nil ns⟩

/-- The second walk starts where the first one has succeeded. -/
theorem bind_of_ok [IsTrans ρ R] {x : Walk β ρ γ} {f : γ → Walk β ρ α} (h : Tidy R p ns x)
    (hf : ∀ s c t, x s = .ok c t → Tidy R p ms (f c)) : Tidy R p (ns ++ ms) (x >>= f) := by
  intro s hs
  obtain ⟨vs, fs, hgrows, hmade⟩ := h s hs
  cases hx : x s with
  | ok c t =>
    rw [after_of_ok hx] at hgrows
    rw [after_bind_of_ok hx]
    obtain ⟨ws, gs, hgrows', hmade'⟩ :=
      hf s c t hx t (Nat.lt_of_lt_of_le (hgrows.env_eq ▸ hs) hgrows.size_le)
    exact ⟨vs ++ ws, fs ++ gs, hgrows.trans hgrows', fun hp => (hmade hp).append (hmade' hp)⟩
  | error e t =>
    rw [after_of_error hx] at hgrows
    rw [after_bind_of_error hx]
    exact ⟨vs, fs, hgrows, fun hp => (hmade hp).mono (List.sublist_append_left _ _)⟩

theorem bind [IsTrans ρ R] {x : Walk β ρ γ} {f : γ → Walk β ρ α} (h : Tidy R p ns x)
    (hf : ∀ c, Tidy R p ms (f c)) : Tidy R p (ns ++ ms) (x >>= f) := h.bind_of_ok fun _ c _ _ => hf c

/-- The first walk binds nothing in the active scope. -/
theorem bind_nil [IsTrans ρ R] {x : Walk β ρ γ} {f : γ → Walk β ρ α} (h : Tidy R p [] x)
    (hf : ∀ c, Tidy R p ns (f c)) : Tidy R p ns (x >>= f) := h.bind hf

/-- A check that leaves the state alone. -/
theorem still_bind [Std.Refl R] [IsTrans ρ R] {x : Walk β ρ γ} {f : γ → Walk β ρ α} (h : Still x)
    (hf : ∀ s c, x s = .ok c s → Tidy R p ns (f c)) : Tidy R p ns (x >>= f) := by
  have hx : Tidy R p [] x := of_still h
  exact hx.bind_of_ok fun s c t hx => hf s c (by rw [hx, ← h s, after_of_ok hx])

theorem part_bind [Std.Refl R] {o : Option γ} {f : γ → Walk β ρ α}
    (h : ∀ a, o = some a → Tidy R p ns (f a)) : Tidy R p ns (part o >>= f) := by
  cases o with
  | some a => exact h a rfl
  | none => exact of_still (Still.throw (α := α))

/-- The second walk binds nothing in the active scope. -/
theorem bind_ends [IsTrans ρ R] {x : Walk β ρ γ} {f : γ → Walk β ρ α} (h : Tidy R p ns x)
    (hf : ∀ c, Tidy R p [] (f c)) : Tidy R p ns (x >>= f) := by
  have hbind := h.bind hf
  rwa [List.append_nil] at hbind

/-- The second walk leaves the state alone. -/
theorem bind_still [Std.Refl R] [IsTrans ρ R] {x : Walk β ρ γ} {f : γ → Walk β ρ α}
    (h : Tidy R p ns x) (hf : ∀ c, Still (f c)) : Tidy R p ns (x >>= f) :=
  h.bind_ends fun c => .of_still (hf c)

theorem ite {c : Prop} [Decidable c] {x y : Walk β ρ α} (h : Tidy R p ns x) (k : Tidy R p ns y) :
    Tidy R p ns (if c then x else y) := by
  split
  · exact h
  · exact k

theorem attached {x : Walk β ρ α} (h : Tidy R p ns x) (node : Node) : Tidy R p ns (attached node x) := by
  intro s hs
  rw [after_attached]
  exact h s hs

/-- A block in a scope of its own binds nothing in the active one, whatever it contains. -/
theorem inChildOf {x : Walk β ρ α} {outer : Env} (h : Tidy R False [] x) :
    Tidy R p ns (inChildOf outer x) := by
  intro s hs
  obtain ⟨vs, fs, hgrows, -⟩ := h (s.openedIn outer) (by simp [State.openedIn, Store.child])
  rw [after_inChildOf]
  exact ⟨[], [], hgrows.leaving hs, fun _ => .nil ns⟩

theorem inChild {x : Walk β ρ α} (h : Tidy R False [] x) : Tidy R p ns (inChild x) :=
  fun s hs => h.inChildOf s hs

theorem defineVariable [Std.Refl R] {v : Variable} {n : Node} (h : n.BindsVariable v.emptied) :
    Tidy R p [n] (defineVariable v : Walk β ρ VariableRef) := by
  intro s hs
  cases hname : (s.store.scope s.env.scope).variableNamed? v.name with
  | some u =>
    rw [after_of_error (defineVariable_of_some hname)]
    exact ⟨[], [], .refl s, fun _ => .nil _⟩
  | none =>
    rw [after_of_ok (defineVariable_eq_ok.mpr ⟨hname, rfl, rfl⟩)]
    refine ⟨[v.emptied], [], ?_, fun _ => ⟨⟨[n], .refl _, .cons h .nil⟩, [], List.nil_sublist _, .nil⟩⟩
    refine ⟨rfl, Std.Refl.refl _, Nat.le_of_eq Store.size_modifyScope.symm, fun id _ hne => ?_, ?_⟩
    · rw [State.withVariable, Store.scope_modifyScope_of_ne hne]
      exact .refl _
    · rw [State.withVariable, Store.scope_modifyScope hs]
      exact ⟨List.map_append, (List.append_nil _).symm⟩

theorem defineFunction [Std.Refl R] {f : Function β} {n : Node} (h : n.BindsFunction f) :
    Tidy R p [n] (defineFunction f : Walk β ρ FunctionRef) := by
  intro s hs
  cases hname : (s.store.scope s.env.scope).functionNamed? f.name f.arity with
  | some g =>
    rw [after_of_error (defineFunction_of_some hname)]
    exact ⟨[], [], .refl s, fun _ => .nil _⟩
  | none =>
    rw [after_of_ok (defineFunction_eq_ok.mpr ⟨hname, rfl, rfl⟩)]
    refine ⟨[], [f], ?_, fun _ => ⟨⟨[], List.nil_sublist _, .nil⟩, [n], .refl _, .cons h .nil⟩⟩
    refine ⟨rfl, Std.Refl.refl _, Nat.le_of_eq Store.size_modifyScope.symm, fun id _ hne => ?_, ?_⟩
    · rw [State.withFunction, Store.scope_modifyScope_of_ne hne]
      exact .refl _
    · rw [State.withFunction, Store.scope_modifyScope hs]
      exact ⟨(List.append_nil _).symm, rfl⟩

end Tidy

end PlcLang
