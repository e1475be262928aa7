import PlcLang.Evaluation.Visit
import PlcLang.Proofs.Walk

/-!
# Guarded runs

A guarded run does something else instead of evaluating a node in a state that fails a check. If it
is the same run whatever it does instead, no node is ever evaluated in such a state.

* `Run.guarded`: the guarded run.
* `Agrees`: two walks that end alike, with a result that is as promised or a stop that is allowed.
* `Agrees.bind`, `Agrees.inChildOf`, …: one rule for every way to build a walk.
* `Agrees.require_ends`, `Agrees.lookupVariable_ends`, …: the walks that may be at fault.
-/

namespace PlcLang

/-! ## Guards -/

namespace Run

open Walk

open Classical in
/-- The evaluation of a node, but `otherwise` of every node that fails the check, which may depend on
the depth and on the state. -/
noncomputable def guarded (check : Nat → Node → State Body String → Prop)
    (otherwise : Nat → Node → Run Value) : (depth : Nat) → Node → Run Value
  | 0, node => visit 0 node
  | depth + 1, node => fun s =>
    if check (depth + 1) node s then attached node (step (guarded check otherwise depth) depth node) s
    else otherwise (depth + 1) node s

/-- All nodes that are evaluated in a run pass the check. -/
def Passes (check : Nat → Node → State Body String → Prop) (depth : Nat) (node : Node)
    (s : State Body String) : Prop :=
  ∀ otherwise, guarded check otherwise depth node s = visit depth node s

/-- Every run passes a check that never fails. -/
theorem passes_of_forall {check : Nat → Node → State Body String → Prop}
    (h : ∀ depth node s, check depth node s) (depth : Nat) (node : Node) (s : State Body String) :
    Passes check depth node s := by
  intro otherwise
  have hvisit : guarded check otherwise depth = visit depth := by
    clear s
    induction depth with
    | zero => rfl
    | succ depth ih =>
      funext node s
      simp only [guarded, if_pos (h _ _ _), ih]
      rfl
  rw [hvisit]

/-- A run that passes a check passes a weaker one. -/
theorem Passes.mono {check check' : Nat → Node → State Body String → Prop} {depth : Nat} {node : Node}
    {s : State Body String} (h : Passes check depth node s)
    (hc : ∀ depth node s, check depth node s → check' depth node s) : Passes check' depth node s := by
  intro otherwise
  -- the stronger guard may fall back on the weaker one
  have hfall : ∀ depth node, guarded check (guarded check' otherwise) depth node =
      guarded check' otherwise depth node := by
    intro depth
    induction depth with
    | zero => exact fun _ => rfl
    | succ depth ih =>
      intro node
      funext s
      by_cases hs : check (depth + 1) node s
      · simp only [guarded, if_pos hs, if_pos (hc _ _ _ hs), funext ih]
      · exact if_neg hs
  rw [← hfall]
  exact h _

end Run

/-! ## Walks that agree -/

variable {β ρ α γ : Type}

/-- In `s` both walks end in the same way: with a result that satisfies `Q`, or with a stop that
satisfies `F`. -/
def Agrees (F : Stop → Prop) (x y : Walk β ρ α) (s : State β ρ) (Q : α → State β ρ → Prop) : Prop :=
  y s = x s ∧ match x s with
    | .ok a s' => Q a s'
    | .error e _ => F e

/-- The walk ends with a result that satisfies `Q`, or with a stop that satisfies `F`. -/
abbrev Ends (F : Stop → Prop) (x : Walk β ρ α) (s : State β ρ) (Q : α → State β ρ → Prop) : Prop :=
  Agrees F x x s Q

namespace Agrees

open Walk

variable {F : Stop → Prop} {s s' : State β ρ} {a : α} {Q : α → State β ρ → Prop}

theorem of_ok {x : Walk β ρ α} (h : x s = .ok a s') (hQ : Q a s') : Agrees F x x s Q :=
  ⟨rfl, by rw [h]; exact hQ⟩

theorem of_error {x : Walk β ρ α} {e : Stop} (h : x s = .error e s') (he : F e) : Agrees F x x s Q :=
  ⟨rfl, by rw [h]; exact he⟩

theorem pure (h : Q a s) : Agrees F (pure a) (pure a) s Q := of_ok rfl h

theorem throw {e : Stop} (h : F e) : Agrees F (throw e) (throw e) s Q := of_error rfl h

theorem raise {f : Fault} (h : F (.raised f)) : Agrees F (raise f) (raise f) s Q := of_error rfl h

/-- Nothing is asked of the stops, and the results are as they should be. -/
theorem of_forall {x : Walk β ρ α} (hF : ∀ e, F e) (hQ : ∀ a s', Q a s') : Agrees F x x s Q := by
  cases hx : x s with
  | ok a s' => exact of_ok hx (hQ a s')
  | error e s' => exact of_error hx (hF e)

/-- What is known of a result. -/
theorem of_eq_ok {x y : Walk β ρ α} (h : Agrees F x y s Q) (hx : x s = .ok a s') : Q a s' := by
  have hresult := h.2
  rwa [hx] at hresult

/-- More stops may be allowed, and less asked of the results. -/
theorem weaken {x y : Walk β ρ α} {F' : Stop → Prop} {Q' : α → State β ρ → Prop} (h : Agrees F x y s Q)
    (hF : ∀ e, F e → F' e) (hQ : ∀ a s', Q a s' → Q' a s') : Agrees F' x y s Q' := by
  refine ⟨h.1, ?_⟩
  have h' := h.2
  cases hx : x s with
  | ok a s' =>
    rw [hx] at h'
    exact hQ a s' h'
  | error e s' =>
    rw [hx] at h'
    exact hF e h'

theorem mono {x y : Walk β ρ α} {Q' : α → State β ρ → Prop} (h : Agrees F x y s Q)
    (hQ : ∀ a s', Q a s' → Q' a s') : Agrees F x y s Q' := h.weaken (fun _ => id) hQ

theorem imp {F' : Stop → Prop} {x y : Walk β ρ α} (h : Agrees F x y s Q) (hF : ∀ e, F e → F' e) :
    Agrees F' x y s Q := h.weaken hF fun _ _ => id

theorem bind {x y : Walk β ρ γ} {f g : γ → Walk β ρ α} {P : γ → State β ρ → Prop}
    (h : Agrees F x y s P) (hf : ∀ c s', P c s' → Agrees F (f c) (g c) s' Q) :
    Agrees F (x >>= f) (y >>= g) s Q := by
  obtain ⟨heq, hres⟩ := h
  unfold Agrees
  change EStateM.bind y g s = EStateM.bind x f s ∧ _
  have hx : (x >>= f) s = EStateM.bind x f s := rfl
  rw [hx]
  unfold EStateM.bind
  rw [heq]
  cases hc : x s with
  | ok c s' =>
    rw [hc] at hres
    exact hf c s' hres
  | error e s' =>
    rw [hc] at hres
    exact ⟨rfl, hres⟩

/-- The first walk leaves the state alone. -/
theorem bind_same {x y : Walk β ρ γ} {f g : γ → Walk β ρ α} (h : Agrees F x y s fun _ s' => s' = s)
    (hf : ∀ c, Agrees F (f c) (g c) s Q) : Agrees F (x >>= f) (y >>= g) s Q := by
  refine h.bind ?_
  rintro c _ rfl
  exact hf c

theorem attached {x y : Walk β ρ α} {node : Node} (h : Agrees F x y s Q)
    (hF : ∀ e, F (.fault e) → F (.fault (e.attach node))) :
    Agrees F (attached node x) (attached node y) s Q := by
  obtain ⟨heq, hres⟩ := h
  unfold Agrees Walk.attached
  rw [heq]
  cases hx : x s with
  | ok a s' =>
    rw [hx] at hres
    exact ⟨rfl, hres⟩
  | error e s' =>
    rw [hx] at hres
    cases e with
    | fault e => exact ⟨rfl, hF e hres⟩
    | _ => exact ⟨rfl, hres⟩

theorem inChildOf {x y : Walk β ρ α} {outer : Env}
    (h : Agrees F x y (s.openedIn outer) fun a t => Q a (t.leaving s.env)) :
    Agrees F (inChildOf outer x) (inChildOf outer y) s Q := by
  obtain ⟨heq, hres⟩ := h
  unfold State.openedIn at heq hres
  unfold Agrees Walk.inChildOf
  dsimp only
  rw [heq]
  cases hx : x ⟨(s.store.child outer).2, (s.store.child outer).1, s.register⟩ with
  | ok a t =>
    rw [hx] at hres
    exact ⟨rfl, hres⟩
  | error e t =>
    rw [hx] at hres
    exact ⟨rfl, hres⟩

theorem inChild {x y : Walk β ρ α} (h : Agrees F x y s.opened fun a t => Q a (t.leaving s.env)) :
    Agrees F (inChild x) (inChild y) s Q := inChildOf h

theorem get {Q : State β ρ → State β ρ → Prop} (h : Q s s) :
    Agrees F (get : Walk β ρ (State β ρ)) get s Q := of_ok rfl h

theorem require {c : Bool} {f : Fault} {Q : Unit → State β ρ → Prop} (h : c = true) (hQ : Q () s) :
    Agrees F (require c f) (require c f) s Q := of_ok (require_eq_ok.mpr ⟨h, rfl⟩) hQ

theorem part {o : Option α} (h : o = some a) (hQ : Q a s) : Agrees F (part o) (part o) s Q :=
  of_ok (part_eq_ok.mpr ⟨h, rfl⟩) hQ

theorem lift {x : Except Fault α} (hok : ∀ a, x = .ok a → Q a s)
    (herror : ∀ f, x = .error f → F (.raised f)) : Agrees F (lift x) (lift x) s Q := by
  cases x with
  | ok a => exact pure (hok a rfl)
  | error f => exact raise (herror f rfl)

theorem reading {f : Store β → Except Stop α} (hok : ∀ a, f s.store = .ok a → Q a s)
    (herror : ∀ e, f s.store = .error e → F e) : Agrees F (reading f) (reading f) s Q := by
  cases h : f s.store with
  | ok a => exact of_ok (by unfold Walk.reading; rw [h]) (hok a h)
  | error e => exact of_error (show Walk.reading f s = .error e s by unfold Walk.reading; rw [h]) (herror e h)

theorem lookupVariable {name : Name} {found : VariableRef × Variable}
    {Q : VariableRef × Variable → State β ρ → Prop}
    (h : s.store.findVariable? s.env name = some found) (hQ : Q found s) :
    Agrees F (lookupVariable name) (lookupVariable name) s Q :=
  of_ok (lookupVariable_eq_ok.mpr ⟨h, rfl⟩) hQ

theorem lookupFunction {name : Name} {arity : Nat} {found : FunctionRef × Function β}
    {Q : FunctionRef × Function β → State β ρ → Prop}
    (h : s.store.findFunction? s.env name arity = some found) (hQ : Q found s) :
    Agrees F (lookupFunction name arity) (lookupFunction name arity) s Q :=
  of_ok (lookupFunction_eq_ok.mpr ⟨h, rfl⟩) hQ

theorem defineVariable {v : Variable} {Q : VariableRef → State β ρ → Prop}
    (h : (s.store.scope s.env.scope).variableNamed? v.name = none)
    (hQ : Q ⟨s.env.scope, v.name⟩ (s.withVariable v)) :
    Agrees F (defineVariable v) (defineVariable v) s Q :=
  of_ok (defineVariable_eq_ok.mpr ⟨h, rfl, rfl⟩) hQ

theorem defineFunction {f : Function β} {Q : FunctionRef → State β ρ → Prop}
    (h : (s.store.scope s.env.scope).functionNamed? f.name f.arity = none)
    (hQ : Q ⟨s.env.scope, f.name, f.arity⟩ (s.withFunction f)) :
    Agrees F (defineFunction f) (defineFunction f) s Q :=
  of_ok (defineFunction_eq_ok.mpr ⟨h, rfl, rfl⟩) hQ

/-! ### Walks that may be at fault -/

theorem require_ends {c : Bool} {f : Fault} (hF : c = false → F (.raised f)) :
    Ends F (Walk.require c f) s fun _ t => t = s ∧ c = true := by
  cases c with
  | true => exact .require rfl ⟨rfl, rfl⟩
  | false => exact .raise (hF rfl)

theorem part_ends {o : Option α} (hF : o = none → F .malformed) :
    Ends F (Walk.part o) s fun a t => t = s ∧ o = some a := by
  cases o with
  | some a => exact .part rfl ⟨rfl, rfl⟩
  | none => exact .throw (hF rfl)

theorem lookupVariable_ends {name : Name} (hF : F (.raised (.undeclaredVariable name))) :
    Ends F (Walk.lookupVariable name) s fun found t =>
      t = s ∧ s.store.findVariable? s.env name = some found := by
  cases hfind : s.store.findVariable? s.env name with
  | some found => exact .lookupVariable hfind ⟨rfl, rfl⟩
  | none => exact .of_error (lookupVariable_of_none hfind) hF

theorem lookupFunction_ends {name : Name} {arity : Nat}
    (hF : F (.raised (.undeclaredFunction name arity))) :
    Ends F (Walk.lookupFunction name arity) s fun found t =>
      t = s ∧ s.store.findFunction? s.env name arity = some found := by
  cases hfind : s.store.findFunction? s.env name arity with
  | some found => exact .lookupFunction hfind ⟨rfl, rfl⟩
  | none => exact .of_error (lookupFunction_of_none hfind) hF

theorem defineVariable_ends {v : Variable} (hF : F (.raised (.duplicateVariable v.name))) :
    Ends F (Walk.defineVariable v) s fun _ t => t = s.withVariable v := by
  cases hnamed : (s.store.scope s.env.scope).variableNamed? v.name with
  | none => exact .defineVariable hnamed rfl
  | some u => exact .of_error (defineVariable_of_some hnamed) hF

theorem defineFunction_ends {f : Function β} (hF : F (.raised (.duplicateFunction f.name f.arity))) :
    Ends F (Walk.defineFunction f) s fun _ t => t = s.withFunction f := by
  cases hnamed : (s.store.scope s.env.scope).functionNamed? f.name f.arity with
  | none => exact .defineFunction hnamed rfl
  | some u => exact .of_error (defineFunction_of_some hnamed) hF

end Agrees

namespace Run

variable {F : Stop → Prop} {s : State Body String}

theorem requireList_ends {name : Name} {v : Value} (hF : F (.raised (.noList name))) :
    Ends F (requireList name v) s fun id t => t = s ∧ v = .list id := by
  unfold requireList
  split
  · exact .pure ⟨rfl, rfl⟩
  · exact .raise hF

theorem requireIndex_ends {id : ListId} {i : Int} (hF : ∀ size, F (.raised (.indexRange i size))) :
    Ends F (requireIndex id i) s fun _ t => t = s := by
  refine .bind_same (.get rfl) fun t => ?_
  dsimp only
  split
  · exact .pure rfl
  · exact .raise (hF _)

end Run

end PlcLang
