import PlcLang.Evaluation.Visit
import PlcLang.Proofs.Store

/-!
# Walks in step

Two walks are in step if they end alike: with the same results or with the same fault at nodes that
correspond to each other, after the same text was printed, and in stores that only differ in their
functions. The functions of a scope may have another order and other statements that correspond.

* `Run.SameEnd`: two runs that cannot be told apart.
* `Run.Pairing`: which nodes and which blocks correspond to each other; `Pairing.States`: which states.
* `Run.InStep`: two walks that are in step, with one rule for every way to build a walk.
-/

namespace PlcLang

/-- Related options are both absent or both present. -/
theorem none_or_some {α γ : Type} {R : α → γ → Prop} {x : Option α} {y : Option γ} (h : Option.Rel R x y) :
    (x = none ∧ y = none) ∨ ∃ a b, x = some a ∧ y = some b ∧ R a b := by
  cases h with
  | some h => exact .inr ⟨_, _, rfl, rfl, h⟩
  | none => exact .inl ⟨rfl, rfl⟩

/-! ## Ends that are the same -/

/-- The faults are the same and stand at the same place, and their nodes are related. -/
structure Located.Pairs (N : Node → Node → Prop) (e e' : Located Fault) : Prop where
  fault_eq : e.fault = e'.fault
  node : Option.Rel N e.node e'.node
  line_eq : e.line = e'.line
  column_eq : e.column = e'.column

/-- The walks stopped for the same reason. -/
inductive Stop.Pairs (N : Node → Node → Prop) : Stop → Stop → Prop
  | fault {e e' : Located Fault} : e.Pairs N e' → Stop.Pairs N (.fault e) (.fault e')
  | malformed : Stop.Pairs N .malformed .malformed
  | unordered : Stop.Pairs N .unordered .unordered
  | overlong : Stop.Pairs N .overlong .overlong
  | unfinished : Stop.Pairs N .unfinished .unfinished

namespace Run

/-- **Two runs that cannot be told apart**: both have printed the same text, and they end with the same
value and with the same lists, or with the same fault at related nodes and at the same place, or both are
cut off. -/
inductive SameEnd (N : Node → Node → Prop) :
    EStateM.Result Stop (State Body String) Value → EStateM.Result Stop (State Body String) Value → Prop
  | ok {v : Value} {s t : State Body String} : s.register = t.register → s.store.lists = t.store.lists →
      SameEnd N (.ok v s) (.ok v t)
  | error {e e' : Stop} {s t : State Body String} : s.register = t.register → e.Pairs N e' →
      SameEnd N (.error e s) (.error e' t)

end Run

section

variable {N N' : Node → Node → Prop} {n m : Node}

theorem Stop.Pairs.refl (hN : ∀ n, N n n) (e : Stop) : e.Pairs N e := by
  cases e with
  | fault e =>
    refine .fault ⟨rfl, ?_, rfl, rfl⟩
    cases e.node with
    | none => exact .none
    | some n => exact .some (hN n)
  | malformed => exact .malformed
  | unordered => exact .unordered
  | overlong => exact .overlong
  | unfinished => exact .unfinished

theorem Stop.Pairs.imp {e e' : Stop} (h : e.Pairs N e') (hN : ∀ n m, N n m → N' n m) : e.Pairs N' e' := by
  cases h with
  | @fault e e' h =>
    obtain ⟨fault, node, line, column⟩ := e
    obtain ⟨fault', node', line', column'⟩ := e'
    obtain ⟨hfault, hnode, hline, hcolumn⟩ := h
    refine .fault ⟨hfault, ?_, hline, hcolumn⟩
    cases hnode with
    | none => exact .none
    | some hnode => exact .some (hN _ _ hnode)
  | malformed => exact .malformed
  | unordered => exact .unordered
  | overlong => exact .overlong
  | unfinished => exact .unfinished

theorem Node.eq_missing_of_not_isPresent (h : n.isPresent = false) : n = .missing := by
  cases n <;> first | rfl | cases h

/-- Attaching related nodes keeps faults the same. -/
theorem Located.Pairs.attach {e e' : Located Fault} (h : e.Pairs N e') (hnode : N n m)
    (hplace : n.place = m.place) (hpresent : n.isPresent = m.isPresent) :
    (e.attach n).Pairs N (e'.attach m) := by
  obtain ⟨fault, node, line, column⟩ := e
  obtain ⟨fault', node', line', column'⟩ := e'
  obtain ⟨rfl, hnodes, rfl, rfl⟩ := h
  dsimp only at hnodes
  cases hnodes with
  | some hnodes => exact ⟨rfl, .some hnodes, rfl, rfl⟩
  | none =>
    cases hn : n.isPresent with
    | false =>
      have hm : m.isPresent = false := hpresent ▸ hn
      rw [Node.eq_missing_of_not_isPresent hn, Node.eq_missing_of_not_isPresent hm]
      exact ⟨rfl, .none, rfl, rfl⟩
    | true =>
      rw [attach_of_isPresent hn, attach_of_isPresent (hpresent ▸ hn)]
      cases line with
      | some => exact ⟨rfl, .some hnode, rfl, rfl⟩
      | none => exact ⟨rfl, .some hnode, congrArg Place.line hplace, congrArg Place.column hplace⟩

theorem Stop.Pairs.attach {e e' : Stop} (h : e.Pairs N e') (hnode : N n m) (hplace : n.place = m.place)
    (hpresent : n.isPresent = m.isPresent) : (e.attach n).Pairs N (e'.attach m) := by
  cases h with
  | fault h => exact .fault (h.attach hnode hplace hpresent)
  | malformed => exact .malformed
  | unordered => exact .unordered
  | overlong => exact .overlong
  | unfinished => exact .unfinished

end

/-! ## Contents of values -/

namespace Store

variable {β γ : Type} {s : Store β} {t : Store γ}

/-- What values contain depends on the lists only. -/
theorem listDatum_congr (h : s.lists = t.lists) (depth : Nat) : s.listDatum depth = t.listDatum depth := by
  induction depth with
  | zero => rfl
  | succ depth ih =>
    funext id
    rw [listDatum, listDatum, ih, list, list, h]

theorem datum_congr (h : s.lists = t.lists) (v : Value) : s.datum v = t.datum v := by
  rw [datum, datum, datum?, datum?, h, listDatum_congr h]

theorem text_congr (h : s.lists = t.lists) (v : Value) : s.text v = t.text v := by
  rw [text, text, datum_congr h]

theorem quoted_congr (h : s.lists = t.lists) (v : Value) : s.quoted v = t.quoted v := by
  rw [quoted, quoted, datum_congr h]

theorem typeOf_congr (h : s.lists = t.lists) (v : Value) : s.typeOf v = t.typeOf v := by
  unfold typeOf
  simp only [quoted_congr h]

theorem equalParts_congr (h : s.lists = t.lists) (l r : Value) : s.equalParts l r = t.equalParts l r := by
  unfold equalParts
  simp only [typeOf_congr h]

theorem equal_congr (h : s.lists = t.lists) (l r : Value) : s.equal l r = t.equal l r := by
  have hwithin (depth : Nat) : s.equalWithin depth = t.equalWithin depth := by
    induction depth with
    | zero => rfl
    | succ depth ih =>
      funext l r
      unfold equalWithin
      simp only [ih, list, h, equalParts_congr h]
      rfl
  rw [equal, equal, hwithin, h]

end Store

namespace Run

open Walk

theorem SameEnd.imp {N N' : Node → Node → Prop} {r r' : EStateM.Result Stop (State Body String) Value}
    (h : SameEnd N r r') (hN : ∀ n m, N n m → N' n m) : SameEnd N' r r' := by
  cases h with
  | ok hregister hlists => exact .ok hregister hlists
  | error hregister he => exact .error hregister (he.imp hN)

/-- Attaching related nodes keeps runs the same. -/
theorem SameEnd.attached {N : Node → Node → Prop} {n m : Node} {x y : Run Value} {s t : State Body String}
    (h : SameEnd N (x s) (y t)) (hnode : N n m) (hplace : n.place = m.place)
    (hpresent : n.isPresent = m.isPresent) : SameEnd N (attached n x s) (attached m y t) := by
  cases hx : x s with
  | ok v s' =>
    cases hy : y t with
    | ok w t' =>
      rw [hx, hy] at h
      rw [attached_eq_ok.mpr hx, attached_eq_ok.mpr hy]
      exact h
    | error e t' =>
      rw [hx, hy] at h
      cases h
  | error e s' =>
    cases hy : y t with
    | ok w t' =>
      rw [hx, hy] at h
      cases h
    | error e' t' =>
      rw [hx, hy] at h
      rw [attached_of_eq_error hx, attached_of_eq_error hy]
      cases h with
      | error hregister he => exact .error hregister (he.attach hnode hplace hpresent)

/-! ## Pairings -/

/-- Which nodes and which blocks of statements correspond to each other. -/
structure Pairing where
  node : Node → Node → Prop
  block : List Node → List Node → Prop

namespace Pairing

variable (P : Pairing)

/-- The functions run blocks that correspond to each other. -/
inductive Bodies : Body → Body → Prop
  | print : Bodies .print .print
  | code {env : Env} {names : List Name} {ss ss' : List Node} {p : Place} : P.block ss ss' →
      Bodies (.code env names ss p) (.code env names ss' p)

/-- The functions have the same head. -/
structure Functions (f g : Function Body) : Prop where
  name_eq : f.name = g.name
  types_eq : f.parameterTypes = g.parameterTypes
  result_eq : f.returnType = g.returnType
  body : Option.Rel P.Bodies f.body g.body
  origin_eq : f.origin = g.origin

theorem Functions.arity_eq {P : Pairing} {f g : Function Body} (h : P.Functions f g) : f.arity = g.arity :=
  congrArg List.length h.types_eq

theorem Functions.refl {P : Pairing} (hblock : ∀ ss, P.block ss ss) (f : Function Body) : P.Functions f f := by
  refine ⟨rfl, rfl, rfl, ?_, rfl⟩
  cases f.body with
  | none => exact .none
  | some b =>
    cases b with
    | print => exact .some .print
    | code => exact .some (.code (hblock _))

theorem Functions.rel_refl {P : Pairing} (hblock : ∀ ss, P.block ss ss) (o : Option (Function Body)) :
    Option.Rel P.Functions o o := by
  cases o with
  | none => exact .none
  | some f => exact .some (.refl hblock f)

/-- The states only differ in the functions of their scopes; under every name and arity they have
functions that correspond to each other. -/
structure States (s t : State Body String) : Prop where
  env_eq : s.env = t.env
  register_eq : s.register = t.register
  lists_eq : s.store.lists = t.store.lists
  size_eq : s.store.scopes.size = t.store.scopes.size
  variables_eq (id : ScopeId) : (s.store.scope id).variables = (t.store.scope id).variables
  functions (id : ScopeId) (name : Name) (arity : Nat) :
    Option.Rel P.Functions ((s.store.scope id).functionNamed? name arity)
      ((t.store.scope id).functionNamed? name arity)

/-- The walks have ended alike. -/
def Ends {α γ : Type} (Q : α → γ → Prop) :
    EStateM.Result Stop (State Body String) α → EStateM.Result Stop (State Body String) γ → Prop
  | .ok a s, .ok b t => Q a b ∧ P.States s t
  | .error e s, .error e' t => e.Pairs P.node e' ∧ P.States s t
  | _, _ => False

variable {P}

/-- Walks that have ended alike with the same value cannot be told apart. -/
theorem Ends.sameEnd {r r' : EStateM.Result Stop (State Body String) Value} (h : P.Ends Eq r r') :
    SameEnd P.node r r' := by
  unfold Ends at h
  split at h
  · obtain ⟨rfl, hstates⟩ := h
    exact .ok hstates.register_eq hstates.lists_eq
  · exact .error h.2.register_eq h.1
  · exact h.elim

/-! ## States -/

namespace States

variable {s t : State Body String}

theorem refl (hblock : ∀ ns, P.block ns ns) (s : State Body String) : P.States s s :=
  ⟨rfl, rfl, rfl, rfl, fun _ => rfl, fun _ _ _ => Functions.rel_refl hblock _⟩

/-- Only the printed texts and the active environments may change. -/
theorem of_store (h : P.States s t) {env : Env} {text : String} :
    P.States ⟨s.store, env, text⟩ ⟨t.store, env, text⟩ :=
  ⟨rfl, rfl, h.lists_eq, h.size_eq, h.variables_eq, h.functions⟩

theorem leaving (h : P.States s t) (env : Env) : P.States (s.leaving env) (t.leaving env) :=
  ⟨rfl, h.register_eq, h.lists_eq, h.size_eq, h.variables_eq, h.functions⟩

theorem openedIn (h : P.States s t) (outer : Env) : P.States (s.openedIn outer) (t.openedIn outer) where
  env_eq := by simp only [State.openedIn, Store.child, h.size_eq]
  register_eq := h.register_eq
  lists_eq := h.lists_eq
  size_eq := by simp only [State.openedIn, Store.size_child, h.size_eq]
  variables_eq id := by simp only [State.openedIn, Store.scope_child_eq, h.variables_eq]
  functions id name arity := by
    simp only [State.openedIn, Store.scope_child_eq]
    exact h.functions id name arity

/-- One scope may change. -/
theorem modifyScope (h : P.States s t) {id : ScopeId} {f g : Scope Body → Scope Body}
    (hvariables : (f (s.store.scope id)).variables = (g (t.store.scope id)).variables)
    (hfunctions : ∀ name arity, Option.Rel P.Functions ((f (s.store.scope id)).functionNamed? name arity)
      ((g (t.store.scope id)).functionNamed? name arity)) :
    P.States { s with store := s.store.modifyScope id f } { t with store := t.store.modifyScope id g } := by
  have hscope (i : ScopeId) : ((s.store.modifyScope id f).scope i = s.store.scope i ∧
        (t.store.modifyScope id g).scope i = t.store.scope i) ∨
      i = id ∧ (s.store.modifyScope id f).scope i = f (s.store.scope i) ∧
        (t.store.modifyScope id g).scope i = g (t.store.scope i) := by
    by_cases hi : i = id
    · subst hi
      by_cases hsize : i < s.store.scopes.size
      · exact .inr ⟨rfl, Store.scope_modifyScope hsize, Store.scope_modifyScope (h.size_eq ▸ hsize)⟩
      · have hge := Nat.le_of_not_lt hsize
        exact .inl ⟨Store.scope_modifyScope_of_ge hge, Store.scope_modifyScope_of_ge (h.size_eq ▸ hge)⟩
    · exact .inl ⟨Store.scope_modifyScope_of_ne hi, Store.scope_modifyScope_of_ne hi⟩
  refine ⟨h.env_eq, h.register_eq, h.lists_eq, ?_, fun i => ?_, fun i name arity => ?_⟩
  · simp only [Store.size_modifyScope, h.size_eq]
  · rcases hscope i with ⟨hs, ht⟩ | ⟨rfl, hs, ht⟩ <;> rw [hs, ht]
    · exact h.variables_eq i
    · exact hvariables
  · rcases hscope i with ⟨hs, ht⟩ | ⟨rfl, hs, ht⟩ <;> rw [hs, ht]
    · exact h.functions i name arity
    · exact hfunctions name arity

theorem withVariable (h : P.States s t) (v : Variable) : P.States (s.withVariable v) (t.withVariable v) := by
  have hscope : t.env.scope = s.env.scope := congrArg Env.scope h.env_eq.symm
  unfold State.withVariable
  rw [hscope]
  refine h.modifyScope ?_ ?_
  · exact congrArg (· ++ [v]) (h.variables_eq _)
  · exact h.functions _

theorem withFunction (h : P.States s t) {f g : Function Body} (hf : P.Functions f g) :
    P.States (s.withFunction f) (t.withFunction g) := by
  have hscope : t.env.scope = s.env.scope := congrArg Env.scope h.env_eq.symm
  unfold State.withFunction
  rw [hscope]
  refine h.modifyScope ?_ fun name arity => ?_
  · exact h.variables_eq _
  · have hlast : Option.Rel P.Functions ([f].find? fun f => f.name = name && f.arity = arity)
        ([g].find? fun f => f.name = name && f.arity = arity) := by
      rw [List.find?_singleton, List.find?_singleton, hf.name_eq, hf.arity_eq]
      split
      · exact .some hf
      · exact .none
    have hfirst := h.functions s.env.scope name arity
    unfold Scope.functionNamed? at hfirst ⊢
    rw [List.find?_append, List.find?_append]
    rcases none_or_some hfirst with ⟨hf', hg'⟩ | ⟨f', g', hf', hg', hfound⟩ <;> rw [hf', hg']
    · exact hlast
    · exact .some hfound

theorem setVariable (h : P.States s t) (ref : VariableRef) (v : Value) :
    P.States { s with store := s.store.setVariable ref v } { t with store := t.store.setVariable ref v } := by
  refine h.modifyScope ?_ ?_
  · exact congrArg (List.map fun u => if u.name = ref.name then { u with value := v } else u)
      (h.variables_eq _)
  · exact h.functions _

theorem findVariable?_eq (h : P.States s t) (env : Env) (name : Name) :
    s.store.findVariable? env name = t.store.findVariable? env name := by
  unfold Store.findVariable? Scope.variableNamed?
  simp only [h.variables_eq]

/-- Lookups of functions find what corresponds to each other. -/
theorem findFunction? (h : P.States s t) (env : Env) (name : Name) (arity : Nat) :
    Option.Rel (fun x y => x.1 = y.1 ∧ P.Functions x.2 y.2) (s.store.findFunction? env name arity)
      (t.store.findFunction? env name arity) := by
  unfold Store.findFunction?
  induction env.visible with
  | nil => exact .none
  | cons id ids ih =>
    rw [List.findSome?_cons, List.findSome?_cons]
    rcases none_or_some (h.functions id name arity) with ⟨hf, hg⟩ | ⟨f, g, hf, hg, hfound⟩ <;> rw [hf, hg]
    · exact ih
    · exact .some ⟨rfl, hfound⟩

end States

end Pairing

/-! ## Walks in step -/

/-- From states that correspond to each other the walks end alike, with results that satisfy `Q`. -/
def InStep {α γ : Type} (P : Pairing) (Q : α → γ → Prop) (x : Run α) (y : Run γ) : Prop :=
  ∀ s t, P.States s t → P.Ends Q (x s) (y t)

/-- What follows walks that have ended alike is in step. -/
theorem Pairing.Ends.bind {P : Pairing} {α α' γ γ' : Type} {Q : α → γ → Prop} {R : α' → γ' → Prop}
    {x : Run α'} {y : Run γ'} {f : α' → Run α} {g : γ' → Run γ} {s t : State Body String}
    (h : P.Ends R (x s) (y t)) (hf : ∀ a b, R a b → InStep P Q (f a) (g b)) :
    P.Ends Q ((x >>= f) s) ((y >>= g) t) := by
  cases hx : x s with
  | ok a s' =>
    cases hy : y t with
    | ok b t' =>
      rw [hx, hy] at h
      rw [bind_of_eq_ok hx, bind_of_eq_ok hy]
      exact hf a b h.1 s' t' h.2
    | error e t' =>
      rw [hx, hy] at h
      exact h.elim
  | error e s' =>
    cases hy : y t with
    | ok b t' =>
      rw [hx, hy] at h
      exact h.elim
    | error e' t' =>
      rw [hx, hy] at h
      rw [bind_of_eq_error hx, bind_of_eq_error hy]
      exact h

namespace InStep

variable {P : Pairing} {α α' γ γ' : Type} {Q : α → γ → Prop} {R : α' → γ' → Prop}

theorem pure {a : α} {b : γ} (h : Q a b) : InStep P Q (pure a) (pure b) := fun _ _ hs => ⟨h, hs⟩

theorem throw {e e' : Stop} (h : e.Pairs P.node e') : InStep P Q (throw e) (throw e') := fun _ _ hs => ⟨h, hs⟩

theorem raise {f : Fault} : InStep P Q (raise f) (raise f) := throw (.fault ⟨rfl, .none, rfl, rfl⟩)

theorem bind {x : Run α'} {y : Run γ'} {f : α' → Run α} {g : γ' → Run γ} (h : InStep P R x y)
    (hf : ∀ a b, R a b → InStep P Q (f a) (g b)) : InStep P Q (x >>= f) (y >>= g) :=
  fun s t hs => (h s t hs).bind hf

/-- The first walks have the same result. -/
theorem bind_eq {x y : Run α'} {f : α' → Run α} {g : α' → Run γ} (h : InStep P Eq x y)
    (hf : ∀ a, InStep P Q (f a) (g a)) : InStep P Q (x >>= f) (y >>= g) := by
  refine h.bind ?_
  rintro a _ rfl
  exact hf a

theorem mono {x : Run α} {y : Run γ} {Q' : α → γ → Prop} (h : InStep P Q x y)
    (hQ : ∀ a b, Q a b → Q' a b) : InStep P Q' x y := by
  intro s t hs
  have hends := h s t hs
  unfold Pairing.Ends at hends ⊢
  split at hends
  · exact ⟨hQ _ _ hends.1, hends.2⟩
  · exact hends
  · exact hends.elim

theorem ite {c : Prop} [Decidable c] {x x' : Run α} {y y' : Run γ} (h : InStep P Q x y)
    (k : InStep P Q x' y') : InStep P Q (if c then x else x') (if c then y else y') := by
  split
  · exact h
  · exact k

theorem lift {x : Except Fault α} : InStep P Eq (lift x) (lift x) := by
  cases x with
  | ok a => exact pure rfl
  | error f => exact raise

theorem require {c : Bool} {f : Fault} : InStep P Eq (require c f) (require c f) := ite (pure rfl) raise

theorem part {o : Option α} {o' : Option γ} (h : Option.Rel Q o o') : InStep P Q (part o) (part o') := by
  cases h with
  | some h => exact pure h
  | none => exact throw .malformed

theorem part_eq {o : Option α} : InStep P Eq (Walk.part o : Run α) (Walk.part o) := by
  cases o with
  | some a => exact pure rfl
  | none => exact throw .malformed

theorem get : InStep P P.States (get : Run (State Body String)) get := fun _ _ hs => ⟨hs, hs⟩

/-- What depends on the lists only. -/
theorem reading (hP : ∀ n, P.node n n) {f : Store Body → Except Stop α}
    (h : ∀ {s t : Store Body}, s.lists = t.lists → f s = f t) : InStep P Eq (reading f) (reading f) := by
  intro s t hs
  unfold Walk.reading
  rw [h hs.lists_eq]
  cases f t.store with
  | ok a => exact ⟨rfl, hs⟩
  | error e => exact ⟨.refl hP e, hs⟩

theorem attached {x : Run α} {y : Run γ} {n m : Node} (h : InStep P Q x y) (hnode : P.node n m)
    (hplace : n.place = m.place) (hpresent : n.isPresent = m.isPresent) :
    InStep P Q (attached n x) (attached m y) := by
  intro s t hs
  have hends := h s t hs
  unfold Pairing.Ends at hends
  split at hends
  next hx hy =>
    rw [attached_eq_ok.mpr hx, attached_eq_ok.mpr hy]
    exact hends
  next hx hy =>
    rw [attached_of_eq_error hx, attached_of_eq_error hy]
    exact ⟨hends.1.attach hnode hplace hpresent, hends.2⟩
  next => exact hends.elim

theorem inChildOf {x : Run α} {y : Run γ} (h : InStep P Q x y) (outer : Env) :
    InStep P Q (inChildOf outer x) (inChildOf outer y) := by
  intro s t hs
  have hends := h _ _ (hs.openedIn outer)
  unfold Pairing.Ends at hends
  split at hends
  next hx hy =>
    rw [inChildOf_of_eq_ok hx, inChildOf_of_eq_ok hy, hs.env_eq]
    exact ⟨hends.1, hends.2.leaving _⟩
  next hx hy =>
    rw [inChildOf_of_eq_error hx, inChildOf_of_eq_error hy, hs.env_eq]
    exact ⟨hends.1, hends.2.leaving _⟩
  next => exact hends.elim

theorem inChild {x : Run α} {y : Run γ} (h : InStep P Q x y) : InStep P Q (inChild x) (inChild y) :=
  get.bind fun s _ hs => hs.env_eq ▸ h.inChildOf s.env

/-! ### Bindings -/

theorem lookupVariable {name : Name} : InStep P Eq (lookupVariable name) (lookupVariable name) := by
  intro s t hs
  have hfind := hs.findVariable?_eq s.env name
  cases hfound : s.store.findVariable? s.env name with
  | some found =>
    rw [hfind, hs.env_eq] at hfound
    rw [lookupVariable_eq_ok.mpr ⟨hfind.trans (hs.env_eq ▸ hfound), rfl⟩, lookupVariable_eq_ok.mpr ⟨hfound, rfl⟩]
    exact ⟨rfl, hs⟩
  | none =>
    rw [lookupVariable_of_none hfound, lookupVariable_of_none (by rw [← hs.env_eq, ← hfind, hfound])]
    exact ⟨.fault ⟨rfl, .none, rfl, rfl⟩, hs⟩

theorem lookupFunction {name : Name} {arity : Nat} :
    InStep P (fun x y => P.Functions x.2 y.2) (lookupFunction name arity) (lookupFunction name arity) := by
  intro s t hs
  rcases none_or_some (hs.findFunction? s.env name arity) with ⟨hf, hg⟩ | ⟨f, g, hf, hg, hfound⟩
  · rw [lookupFunction_of_none hf, lookupFunction_of_none (hs.env_eq ▸ hg)]
    exact ⟨.fault ⟨rfl, .none, rfl, rfl⟩, hs⟩
  · rw [lookupFunction_eq_ok.mpr ⟨hf, rfl⟩, lookupFunction_eq_ok.mpr ⟨hs.env_eq ▸ hg, rfl⟩]
    exact ⟨hfound.2, hs⟩

theorem defineVariable {v : Variable} : InStep P Eq (defineVariable v) (defineVariable v) := by
  intro s t hs
  have hnamed : (s.store.scope s.env.scope).variableNamed? v.name =
      (t.store.scope t.env.scope).variableNamed? v.name := by
    rw [Scope.variableNamed?, Scope.variableNamed?, hs.variables_eq, hs.env_eq]
  cases hv : (s.store.scope s.env.scope).variableNamed? v.name with
  | some u =>
    rw [defineVariable_of_some hv, defineVariable_of_some (hnamed.symm.trans hv)]
    exact ⟨.fault ⟨rfl, .none, rfl, rfl⟩, hs⟩
  | none =>
    rw [defineVariable_eq_ok.mpr ⟨hv, rfl, rfl⟩, defineVariable_eq_ok.mpr ⟨hnamed.symm.trans hv, rfl, rfl⟩,
      hs.env_eq]
    exact ⟨rfl, hs.withVariable v⟩

theorem defineFunction {f g : Function Body} (h : P.Functions f g) :
    InStep P Eq (defineFunction f) (defineFunction g) := by
  intro s t hs
  have hscope : s.env.scope = t.env.scope := congrArg Env.scope hs.env_eq
  have hnamed := hs.functions s.env.scope f.name f.arity
  rcases none_or_some hnamed with ⟨hf, hg⟩ | ⟨u, v, hf, hg, -⟩ <;> rw [hscope, h.name_eq, h.arity_eq] at hg
  · rw [defineFunction_eq_ok.mpr ⟨hf, rfl, rfl⟩, defineFunction_eq_ok.mpr ⟨hg, rfl, rfl⟩, hscope, h.name_eq,
      h.arity_eq]
    exact ⟨rfl, hs.withFunction h⟩
  · rw [defineFunction_of_some hf, defineFunction_of_some hg, h.name_eq, h.arity_eq]
    exact ⟨.fault ⟨rfl, .none, rfl, rfl⟩, hs⟩

end InStep

end Run

end PlcLang
