import PlcLang.Proofs.Evaluation.Guard
import PlcLang.Proofs.Evaluation.Still
import PlcLang.Proofs.Shape
import PlcLang.Proofs.Store

/-!
# Regimes

A regime says which values may occur, which functions may be bound, what is asked of the lists, which
nodes may be evaluated how deeply and how an evaluation may stop.

* `Regime`, `Regime.Holds`: regimes, and the states in which one is kept.
* `Regime.Stable`, `Regime.Lawful`: the laws.
* `Follows`: two walks that end alike and keep a regime, with one rule for every way to build a walk.
-/

namespace PlcLang

/-- If the function has code, its statements have a property. -/
def Function.HasCode (good : Node → Prop) (f : Function Body) : Prop :=
  ∀ env names ss p, f.body = some (.code env names ss p) → ∀ n ∈ ss, good n

namespace Run

open Walk

/-! ## Regimes -/

/-- What a run may do. -/
structure Regime where
  /-- The values that may occur when there are as many lists. -/
  fits : Nat → Value → Prop
  /-- The functions that may be bound. -/
  runs : Function Body → Prop
  /-- What is asked of the lists, apart from the values in them. -/
  tame : Store Body → Prop
  /-- The nodes that may be evaluated in a depth. -/
  good : Nat → Node → Prop
  /-- What is asked of the state in which a node is evaluated. -/
  check : Nat → Node → State Body String → Prop
  /-- The stops that are allowed. -/
  allows : Stop → Prop

namespace Regime

variable (R : Regime)

/-- The value may occur in the state. -/
def Fits (s : State Body String) (v : Value) : Prop := R.fits s.store.lists.size v

/-- The regime is kept by whatever the store holds, visible or not. -/
structure Holds (s : State Body String) : Prop where
  /-- The variables of all scopes. -/
  held (id : ScopeId) : ∀ v ∈ (s.store.scope id).variables, R.Fits s v.value
  /-- The items of all lists. -/
  items (id : ListId) : ∀ v ∈ s.store.list id, R.Fits s v
  /-- The functions of all scopes. -/
  functions (id : ScopeId) : ∀ f ∈ (s.store.scope id).functions, R.runs f
  tame : R.tame s.store

/-- The evaluation has ended as the regime allows. -/
def EndsWell : EStateM.Result Stop (State Body String) Value → Prop
  | .ok v s => R.Fits s v ∧ R.Holds s
  | .error e s => R.allows e ∧ R.Holds s

/-- The node may be evaluated in the state, and the evaluation ends as the regime allows. -/
def Settled (depth : Nat) (n : Node) (s : State Body String) : Prop :=
  R.good depth n ∧ R.Holds s ∧ R.EndsWell (visit depth n s)

/-- The laws of what a regime asks of a store. -/
structure Stable : Prop where
  /-- More lists do no harm. -/
  mono {m n : Nat} {v : Value} : m ≤ n → R.fits m v → R.fits n v
  /-- Only the lists matter. -/
  lists {s t : Store Body} : s.lists = t.lists → R.tame s → R.tame t

/-- The laws of regimes. -/
structure Lawful : Prop extends R.Stable where
  /-- A program may be at fault. If the message holds an integer, it is one that may occur. -/
  fault {n : Nat} {f : Fault} : (∀ i ∈ f.integer?, R.fits n (.integer i)) → R.allows (.raised f)
  /-- It does not matter to which node a fault is attached. -/
  attach {e : Located Fault} (n : Node) : R.allows (.fault e) → R.allows (.fault (e.attach n))
  nil (n : Nat) : R.fits n .nil
  boolean (n : Nat) (b : Bool) : R.fits n (.boolean b)
  carryOn (n : Nat) : R.fits n .carryOn
  /-- A function may return what may occur. -/
  returned {n : Nat} {v : Value} : R.fits n (.returned v) ↔ R.fits n v
  literal {d n : Nat} {v : Value} {t : Option Ty} {p : Place} : R.good d (.literal v t p) → R.fits n v
  requireBoolean {s : State Body String} {v : Value} : R.Holds s → R.Fits s v →
    Ends R.allows (requireBoolean v) s fun _ _ => True
  requireInteger {s : State Body String} {v : Value} : R.Holds s → R.Fits s v →
    Ends R.allows (requireInteger v) s fun _ _ => True
  operate {s : State Body String} {op : Operator} {l r : Value} : R.Holds s → R.Fits s l →
    R.Fits s r → Ends R.allows (operate op l r) s fun v _ => R.Fits s v
  equal {s : State Body String} {l r : Value} : R.Holds s → R.Fits s l → R.Fits s r →
    Ends R.allows (equal l r) s fun _ _ => True
  textOf {s : State Body String} {v : Value} : R.Holds s → R.Fits s v →
    Ends R.allows (textOf v) s fun _ _ => True
  /-- The parts of a node, and their parts, may be evaluated in a smaller depth. -/
  part {d : Nat} {n c : Node} : R.good (d + 1) n → c ∈ n.children →
    R.good d c ∧ ∀ m ∈ c.children, R.good d m
  /-- The cases of a switch have values. -/
  case {d : Nat} {c m : Node} {cases : List Node} {p : Place} : R.good (d + 1) (.switch c cases p) →
    m ∈ cases → m.caseValue? = none → R.allows .malformed
  /-- A node that may be evaluated in no depth. -/
  cutOff {n : Node} : R.good 0 n → R.allows .unfinished
  /-- A loop may be cut off. -/
  loop {d : Nat} {c : Node} {ss : List Node} {p : Place} : R.good d (.whileLoop c ss p) →
    R.allows .unfinished
  /-- A new list may occur. -/
  newList {d : Nat} {es : List Node} {t : Option Ty} {p : Place} {s : State Body String}
    {vs : List Value} : R.good d (.listLiteral es t p) → R.Holds s → (∀ v ∈ vs, R.Fits s v) →
    R.fits (s.store.lists.size + 1) (.list s.store.lists.size) ∧
      R.tame (s.store.newList vs.toArray).2
  /-- An item of a list may be replaced. -/
  setItem {d : Nat} {name : Name} {offset value : Node} {t : Option Ty} {b : Option VariableRef}
    {p q : Place} {s s₁ s₂ : State Body String} {ref : VariableRef} {u : Variable} {id : ListId}
    {i : Int} {v : Value} :
    R.check (d + 1) (.assignment (.access name offset t b p) value q) s →
    s.store.findVariable? s.env name = some (ref, u) → u.isMutable = true →
    offset.isPresent = true → u.value = .list id →
    visit d offset s = .ok (.integer i) s₁ → visit d value s₁ = .ok v s₂ → R.Holds s₂ → R.Fits s₂ v →
    0 ≤ i → i < (s₂.store.list id).size → R.tame (s₂.store.setItem id i.toNat v)
  /-- A function may be bound where it is declared. -/
  function {d : Nat} {name : Name} {names types : List Name} {returnName : Name} {ss : List Node}
    {b : Option FunctionRef} {p : Place} {env : Env} :
    R.good d (.function name names types returnName ss b p) →
    R.runs { name, parameterTypes := names.map fun _ => .any, returnType := .any, origin := p,
             body := some (.code env names ss p) }
  /-- What a call runs may be evaluated in a smaller depth. -/
  call {d : Nat} {name : Name} {es : List Node} {t : Option Ty} {b : Option FunctionRef} {p : Place}
    {s : State Body String} {ref : FunctionRef} {f : Function Body} :
    R.good (d + 1) (.call name es t b p) → R.check (d + 1) (.call name es t b p) s →
    s.store.findFunction? s.env name es.length = some (ref, f) → R.runs f → f.HasCode (R.good d)
  /-- So may be the main function. -/
  main {d : Nat} {gs fs : List Node} {f : Function Body} :
    R.good (d + 1) (.source gs fs) → R.runs f → f.HasCode (R.good d)

/-- A fault without an integer in its message is allowed. -/
theorem Lawful.raised {R : Regime} (hR : R.Lawful) {f : Fault} (hf : f.integer? = none) :
    R.allows (.raised f) := by
  refine hR.fault (n := 0) fun i hi => ?_
  rw [hf] at hi
  cases hi

/-! ## States that keep a regime -/

namespace Holds

variable {R : Regime} {s t : State Body String}

/-- Only the scopes and the lists matter. -/
theorem of_store_eq (h : R.Holds s) (ht : t.store = s.store) : R.Holds t := by
  obtain ⟨held, items, functions, tame⟩ := h
  unfold Fits at held items
  rw [← ht] at held items functions tame
  exact ⟨held, items, functions, tame⟩

theorem leaving (h : R.Holds s) (env : Env) : R.Holds (s.leaving env) := h.of_store_eq rfl

theorem openedIn (h : R.Holds s) (hR : R.Stable) (outer : Env) : R.Holds (s.openedIn outer) := by
  have hscope (id : ScopeId) : (s.openedIn outer).store.scope id = s.store.scope id :=
    @Store.scope_child_eq _ s.store id outer
  exact ⟨fun id => (hscope id).symm ▸ h.held id, h.items, fun id => (hscope id).symm ▸ h.functions id,
    hR.lists (s := s.store) rfl h.tame⟩

/-- One scope may change. -/
theorem modifyScope (h : R.Holds s) (hR : R.Stable) {id : ScopeId} {f : Scope Body → Scope Body}
    (hheld : ∀ v ∈ (f (s.store.scope id)).variables, R.Fits s v.value)
    (hfunctions : ∀ g ∈ (f (s.store.scope id)).functions, R.runs g) :
    R.Holds { s with store := s.store.modifyScope id f } where
  held := Store.forall_scope_modifyScope (Q := fun sc => ∀ v ∈ sc.variables, R.Fits s v.value)
    h.held hheld
  items := h.items
  functions := Store.forall_scope_modifyScope (Q := fun sc => ∀ g ∈ sc.functions, R.runs g)
    h.functions hfunctions
  tame := hR.lists (s := s.store) rfl h.tame

theorem withVariable (h : R.Holds s) (hR : R.Stable) {v : Variable} (hv : R.Fits s v.value) :
    R.Holds (s.withVariable v) :=
  h.modifyScope hR (List.forall_mem_append.mpr ⟨h.held _, List.forall_mem_singleton.mpr hv⟩)
    (h.functions _)

theorem withFunction (h : R.Holds s) (hR : R.Stable) {f : Function Body} (hf : R.runs f) :
    R.Holds (s.withFunction f) :=
  h.modifyScope hR (h.held _)
    (List.forall_mem_append.mpr ⟨h.functions _, List.forall_mem_singleton.mpr hf⟩)

theorem setVariable (h : R.Holds s) (hR : R.Stable) {value : Value} (hvalue : R.Fits s value)
    (ref : VariableRef) : R.Holds { s with store := s.store.setVariable ref value } := by
  refine h.modifyScope hR (List.forall_mem_map.mpr fun v hv => ?_) (h.functions _)
  split
  · exact hvalue
  · exact h.held _ v hv

theorem newList (h : R.Holds s) (hR : R.Stable) {items : Array Value}
    (hitems : ∀ v ∈ items, R.Fits s v) (htame : R.tame (s.store.newList items).2) :
    R.Holds { s with store := (s.store.newList items).2 } := by
  have hmono {v : Value} (hv : R.Fits s v) : R.fits (s.store.newList items).2.lists.size v :=
    hR.mono (by simp [Store.newList]) hv
  exact ⟨fun id v hv => hmono (h.held id v hv), Store.forall_list_newList
    (R := fun items' => ∀ v ∈ items', R.fits (s.store.newList items).2.lists.size v)
    (fun id v hv => hmono (h.items id v hv)) fun v hv => hmono (hitems v hv), h.functions, htame⟩

theorem setItem (h : R.Holds s) {value : Value} (hvalue : R.Fits s value) {id : ListId} {index : Nat}
    (htame : R.tame (s.store.setItem id index value)) :
    R.Holds { s with store := s.store.setItem id index value } := by
  have hsize : (s.store.setItem id index value).lists.size = s.store.lists.size := by
    simp [Store.setItem]
  refine ⟨fun id v hv => ?_, fun i => ?_, h.functions, htame⟩
  · exact (congrArg (R.fits · v.value) hsize).mpr (h.held id v hv)
  · unfold Fits
    rw [hsize]
    refine Store.forall_list_setItem (R := fun items => ∀ v ∈ items, R.Fits s v) h.items
      (fun v hv => ?_) i
    rcases Array.mem_or_eq_of_mem_setIfInBounds hv with hv | rfl
    · exact h.items id v hv
    · exact hvalue

/-- A run starts without values, and `print` is its only function. -/
theorem start (hR : R.Stable) (hprint : ∀ f : Function Body, f.body = some .print → R.runs f)
    (htame : R.tame {}) : R.Holds (Run.start {} none) := by
  have hroot : R.Holds ⟨(Store.root (β := Body) {}).2, (Store.root (β := Body) {}).1, ""⟩ := by
    have hscope (id : ScopeId) : (Store.root (β := Body) {}).2.scope id = {} := by
      cases id <;> rfl
    exact ⟨fun id => (hscope id).symm ▸ List.forall_mem_nil _, fun _ => Array.forall_mem_empty _,
      fun id => (hscope id).symm ▸ List.forall_mem_nil _, hR.lists (s := {}) rfl htame⟩
  exact hroot.modifyScope hR (List.forall_mem_nil _) (List.forall_mem_singleton.mpr (hprint _ rfl))

end Holds

end Regime

/-! ## Walks that keep a regime -/

/-- In `s` both walks end alike. They end with a result that satisfies `Q`, with no fewer lists than
before and with the regime kept; or with a stop that is allowed and the regime kept. Nothing is said if
the first walk ends with a stop that satisfies `A`. -/
def Follows {α : Type} (R : Regime) (A : Stop → Prop) (x y : Run α) (s : State Body String)
    (Q : α → State Body String → Prop) : Prop :=
  match x s with
  | .ok a t => y s = x s ∧ Q a t ∧ R.Holds t ∧ s.store.lists.size ≤ t.store.lists.size
  | .error e t => A e ∨ y s = x s ∧ R.allows e ∧ R.Holds t

namespace Follows

variable {α γ : Type} {R : Regime} {A : Stop → Prop} {s t : State Body String}
  {Q Q' : α → State Body String → Prop} {P : γ → State Body String → Prop}

theorem of_ok {x : Run α} {a : α} (h : x s = .ok a t) (hQ : Q a t) (ht : R.Holds t)
    (hsize : s.store.lists.size ≤ t.store.lists.size) : Follows R A x x s Q := by
  unfold Follows
  rw [h]
  exact ⟨rfl, hQ, ht, hsize⟩

theorem of_error {x : Run α} {e : Stop} (h : x s = .error e t) (he : R.allows e) (ht : R.Holds t) :
    Follows R A x x s Q := by
  unfold Follows
  rw [h]
  exact .inr ⟨rfl, he, ht⟩

theorem pure {a : α} (hs : R.Holds s) (hQ : Q a s) : Follows R A (pure a) (pure a) s Q :=
  of_ok rfl hQ hs (Nat.le_refl _)

theorem throw {e : Stop} (hs : R.Holds s) (he : R.allows e) :
    Follows R A (throw e) (throw e) s Q := of_error rfl he hs

theorem raise {f : Fault} (hR : R.Lawful) (hs : R.Holds s) (hf : f.integer? = none) :
    Follows R A (raise f) (raise f) s Q := throw hs (hR.raised hf)

/-- What is known of a result. -/
theorem of_eq_ok {x y : Run α} {a : α} (h : Follows R A x y s Q) (hx : x s = .ok a t) :
    Q a t ∧ R.Holds t := by
  unfold Follows at h
  rw [hx] at h
  exact ⟨h.2.1, h.2.2.1⟩

/-- Nothing is said of a walk that ends with a stop that does not count. -/
theorem excused {x y : Run α} {e : Stop} (h : x s = .error e t) (he : A e) : Follows R A x y s Q := by
  unfold Follows
  rw [h]
  exact .inl he

theorem bind {x y : Run γ} {f g : γ → Run α} (h : Follows R A x y s P)
    (hf : ∀ c t, x s = .ok c t → P c t → R.Holds t → s.store.lists.size ≤ t.store.lists.size →
      Follows R A (f c) (g c) t Q) : Follows R A (x >>= f) (y >>= g) s Q := by
  have hx : (x >>= f) s = EStateM.bind x f s := rfl
  have hy : (y >>= g) s = EStateM.bind y g s := rfl
  unfold Follows at h ⊢
  rw [hx, hy]
  unfold EStateM.bind
  cases hc : x s with
  | ok c t =>
    rw [hc] at h
    obtain ⟨heq, hP, ht, hsize⟩ := h
    have hrest := hf c t hc hP ht hsize
    unfold Follows at hrest
    rw [heq]
    dsimp only
    cases hd : f c t with
    | ok a u =>
      rw [hd] at hrest
      exact ⟨hrest.1, hrest.2.1, hrest.2.2.1, Nat.le_trans hsize hrest.2.2.2⟩
    | error e u =>
      rw [hd] at hrest
      exact hrest
  | error e t =>
    rw [hc] at h
    exact h.imp_right fun h => ⟨by rw [h.1], h.2⟩

theorem ite {c : Prop} [Decidable c] {x y x' y' : Run α} (h : c → Follows R A x y s Q)
    (h' : ¬ c → Follows R A x' y' s Q) :
    Follows R A (if c then x else x') (if c then y else y') s Q := by
  split
  next hc => exact h hc
  next hc => exact h' hc

/-- A test or an operation, which leaves the state alone. -/
theorem bind_still {x : Run γ} {f g : γ → Run α} {P : γ → Prop} (h : Still x) (hs : R.Holds s)
    (hx : Ends R.allows x s fun c _ => P c)
    (hf : ∀ c, x s = .ok c s → P c → Follows R A (f c) (g c) s Q) :
    Follows R A (x >>= f) (x >>= g) s Q := by
  have hstill := h s
  have hfirst : Follows R A x x s fun c t => t = s ∧ x s = .ok c s ∧ P c := by
    have hresult := hx.2
    cases hc : x s with
    | ok c t =>
      rw [hc] at hresult
      obtain rfl := (after_of_ok hc).symm.trans hstill
      exact of_ok hc ⟨rfl, rfl, hresult⟩ hs (Nat.le_refl _)
    | error e t =>
      rw [hc] at hresult
      obtain rfl := (after_of_error hc).symm.trans hstill
      exact of_error hc hresult hs
  refine hfirst.bind fun c t _ hc _ _ => ?_
  obtain ⟨rfl, hok, hP⟩ := hc
  exact hf c hok hP

theorem of_still {x : Run α} {P : α → Prop} (h : Still x) (hs : R.Holds s) (hx : Ends R.allows x s fun a _ => P a)
    (hQ : ∀ a, P a → Q a s) : Follows R A x x s Q := by
  have hbind := bind_still (A := A) (Q := Q) (f := Pure.pure) (g := Pure.pure) h hs hx fun a _ hP =>
    pure hs (hQ a hP)
  rwa [bind_pure] at hbind

theorem attached {x y : Run α} {node : Node} (hR : R.Lawful) (hA : ∀ e, ¬ A (.fault e))
    (h : Follows R A x y s Q) : Follows R A (attached node x) (attached node y) s Q := by
  unfold Follows Walk.attached at *
  cases hx : x s with
  | ok a t =>
    rw [hx] at h
    exact ⟨by rw [h.1], h.2⟩
  | error e t =>
    rw [hx] at h
    cases e with
    | fault e =>
      obtain ⟨heq, he, ht⟩ := h.resolve_left (hA e)
      exact .inr ⟨by rw [heq], hR.attach node he, ht⟩
    | _ => exact h.imp_right fun h => ⟨by rw [h.1], h.2⟩

theorem inChildOf {x y : Run α} {outer : Env} (h : Follows R A x y (s.openedIn outer) Q)
    (hQ : ∀ a t, Q a t → Q' a (t.leaving s.env)) :
    Follows R A (inChildOf outer x) (inChildOf outer y) s Q' := by
  unfold Follows State.openedIn at h
  unfold Follows Walk.inChildOf
  dsimp only
  cases hx : x ⟨(s.store.child outer).2, (s.store.child outer).1, s.register⟩ with
  | ok a t =>
    rw [hx] at h
    exact ⟨by rw [h.1], hQ a t h.2.1, h.2.2.1.leaving _, h.2.2.2⟩
  | error e t =>
    rw [hx] at h
    exact h.imp_right fun h => ⟨by rw [h.1], h.2.1, h.2.2.leaving _⟩

end Follows

end Run

end PlcLang
