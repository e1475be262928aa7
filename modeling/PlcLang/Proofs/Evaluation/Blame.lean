import Mathlib.Data.List.Duplicate
import PlcLang.Proofs.Evaluation.Permuted
import PlcLang.Proofs.Evaluation.Visits

/-!
# What a run blames

Whatever fails while the body of a function is run is a statement of the body. A call itself fails only
where no function is found or where parameters are bound, and a program only where it lacks a main
function.

* `Run.bindParameters_fails`, `Run.nodup_of_bindParameters`: the names of parameters.
* `Node.Declares`: the functions that a program binds.
* `Run.invoke_fails`: what fails while a function is run.
* `Run.CallFails`, `Run.callFails`: how calls fail.
* `Run.Prepares`, `Run.Prepares.or_inside`: how programs fail.
* `Run.Reached`: the evaluations in a run.
* `Run.passes_callFails`, `Run.blames_of_run`: the calls in a run, and the node that a run blames.
-/

namespace PlcLang

variable {β ρ : Type}

namespace Node

/-- The names of the parameters of a function. -/
def parameters : Node → List Name
  | function _ names .. => names
  | _ => []

/-- The function is `print`, or a node of the tree binds it. -/
def Declares (t : Node) (f : Function Body) : Prop :=
  f.body = some .print ∨ ∃ n env, t.Contains n ∧ n.binding? env = some f

/-- What is run by a call of a function that a node binds. -/
theorem body_of_binding? {n : Node} {env : Env} {f : Function Body} (h : n.binding? env = some f) :
    n.parameters.length = f.arity ∧ ∃ place, f.body = some (.code env n.parameters n.children place) := by
  cases n <;> cases h
  exact ⟨(List.length_map _).symm, _, rfl⟩

variable {N : String → Prop} {t n m : Node}

theorem IsPart.isPresent_argument {name : Name} {nodes : List Node} {type : Option Ty}
    {b : Option FunctionRef} {p : Place} (h : IsPart N (.call name nodes type b p)) (hm : m ∈ nodes) :
    m.isPresent = true := by
  cases h with
  | expression h =>
    cases h with
    | call _ h => exact (h m hm).isPresent
  | program h | global h | function h | statement h => cases h

theorem IsPart.isPresent_statement (h : IsPart N n) {env : Env} {f : Function Body}
    (hbinding : n.binding? env = some f) (hm : m ∈ n.children) : m.isPresent = true := by
  cases n <;> cases hbinding
  cases h with
  | function h =>
    cases h with
    | function _ _ _ _ h => exact (h m hm).isPresent
  | program h | global h | statement h | expression h => cases h

end Node

/-- What is unbound in the active scope when a variable has been added. -/
theorem State.variableNamed?_withVariable_eq_none {s : State β ρ} (hs : s.env.scope < s.store.scopes.size)
    {v : Variable} {x : Name} :
    ((s.withVariable v).store.scope s.env.scope).variableNamed? x = none ↔
      (s.store.scope s.env.scope).variableNamed? x = none ∧ v.name ≠ x := by
  rw [withVariable, Store.scope_modifyScope hs]
  simp [Scope.variableNamed?]

namespace Run

open Walk

variable {place : Place} {names : List Name} {arguments : List Value} {s t u : State Body String}
  {f : Function Body} {body : Body} {V : Node → Run Value} {env : Env} {ss : List Node}
  {e : Located Fault} {v : Value} {name : Name}

/-! ## Parameters -/

/-- Parameters whose names are new can only be refused because two have one name. -/
theorem bindParameters_fails {e : Stop} (hs : s.env.scope < s.store.scopes.size)
    (h : bindParameters place names arguments s = .error e t) :
    ∃ x ∈ names, e = .raised (.duplicateVariable x) ∧
      ((s.store.scope s.env.scope).variableNamed? x = none → List.Duplicate x names) := by
  fun_induction bindParameters place names arguments generalizing s with
  | case1 name names value values ih =>
    cases hname : (s.store.scope s.env.scope).variableNamed? name with
    | some v =>
      rw [bind_of_eq_error (defineVariable_of_some hname)] at h
      cases h
      refine ⟨name, List.mem_cons_self, rfl, fun hnone => ?_⟩
      cases hname.symm.trans hnone
    | none =>
      have hdefine := (defineVariable_eq_ok (s := s)
        (v := { name, value, origin := place })).mpr ⟨hname, rfl, rfl⟩
      rw [bind_of_eq_ok hdefine] at h
      obtain ⟨x, hx, he, hduplicate⟩ := ih (by simpa [State.withVariable] using hs) h
      refine ⟨x, List.mem_cons_of_mem _ hx, he, fun hnone => ?_⟩
      by_cases hsame : name = x
      · exact hsame ▸ .cons_mem (hsame ▸ hx)
      · exact (hduplicate ((State.variableNamed?_withVariable_eq_none hs).mpr ⟨hnone, hsame⟩)).duplicate_cons _
  | case2 => cases h

/-- If all parameters can be bound, their names differ. -/
theorem nodup_of_bindParameters (hs : s.env.scope < s.store.scopes.size)
    (hlength : names.length = arguments.length)
    (h : bindParameters place names arguments s = .ok () t) :
    names.Nodup ∧ ∀ x ∈ names, (s.store.scope s.env.scope).variableNamed? x = none := by
  induction names generalizing s arguments with
  | nil => exact ⟨List.nodup_nil, List.forall_mem_nil _⟩
  | cons name names ih =>
    obtain ⟨value, values, rfl⟩ := List.exists_cons_of_length_eq_add_one hlength.symm
    obtain ⟨_, _, hdefine, hrest⟩ := bind_eq_ok.mp h
    obtain ⟨hnew, -, rfl⟩ := defineVariable_eq_ok.mp hdefine
    obtain ⟨hnodup, hall⟩ := ih (by simpa [State.withVariable] using hs) (Nat.succ.inj hlength) hrest
    have hall (x : Name) (hx : x ∈ names) := (State.variableNamed?_withVariable_eq_none hs).mp (hall x hx)
    refine ⟨List.nodup_cons.mpr ⟨fun hmem => (hall name hmem).2 rfl, hnodup⟩, ?_⟩
    exact List.forall_mem_cons.mpr ⟨hnew, fun x hx => (hall x hx).1⟩

/-! ## Functions -/

/-- The functions of a tree may be bound and its nodes be evaluated, the tree itself at most in the given
depth. -/
def Regime.inside (t : Node) (depth : Nat) : Regime :=
  .only (fun d n => t.Contains n ∧ (d < depth → n ≠ t)) t.Declares

theorem Regime.inside_lawful (t : Node) (depth : Nat) : (Regime.inside t depth).Lawful := by
  have hchild {n c : Node} (hn : t.Contains n) (hc : c ∈ n.children) : t.Contains c ∧ c ≠ t :=
    ⟨.child hn hc, ne_of_apply_ne Node.height (Nat.ne_of_lt (Node.height_lt_of_contains_child hn hc))⟩
  refine only_lawful (fun hn hc => ?_) (fun hn => .inr ⟨_, _, hn.1, rfl⟩) fun hn hf => ?_
  · obtain ⟨hc, hne⟩ := hchild hn.1 hc
    exact ⟨⟨hc, fun _ => hne⟩, fun m hm => (hchild hc hm).imp_right fun hne _ => hne⟩
  · intro env names ss p hcode x hx
    rcases hf with hprint | ⟨n, env', hn, hbinding⟩
    · cases hprint.symm.trans hcode
    · obtain ⟨-, place, hbody⟩ := Node.body_of_binding? hbinding
      cases hbody.symm.trans hcode
      exact (hchild hn hx).imp_right fun hne _ => hne

theorem bodyFor_eq (hbody : f.body = some body) {received : Nat} (hreceived : received = f.arity) :
    f.bodyFor received = .ok body := by
  simp [Function.bodyFor, hbody, hreceived]

/-- What a function with code runs in its scope. -/
def runCode (place : Place) (names : List Name) (arguments : List Value) (ss : List Node) :
    Tour Body String Value Value := fun V => do
  bindParameters place names arguments
  match ← block V ss with
  | .returned v => pure v
  | _ => pure .nil

theorem invoke_code (hbody : f.body = some (.code env names ss place)) (hlength : arguments.length = f.arity)
    (V : Node → Run Value) :
    invoke V f arguments = inChildOf env (runCode place names arguments ss V) := by
  rw [invoke, bodyFor_eq hbody hlength]
  rfl

theorem invoke_print (hbody : f.body = some .print) (hlength : arguments.length = f.arity)
    (V : Node → Run Value) : invoke V f arguments = do
      let text ← textOf (arguments.headD .nil)
      let _ ← printLine text
      return .nil := by
  rw [invoke, bodyFor_eq hbody hlength]
  rfl

/-- Printing a value is not at fault. -/
theorem textOf_ne_fault : textOf v s ≠ .error (.fault e) u := by
  intro h
  unfold textOf reading at h
  split at h
  · cases h
  next _ htext =>
    cases h
    exact Store.of_text (F := (· ≠ .fault e)) htext (fun _ => nofun) (fun _ => nofun) rfl

/-- **What fails while a function is run.** Two parameters have one name, or a statement of the body
fails. -/
theorem invoke_fails {t : Node} (hf : t.Declares f) (hlength : arguments.length = f.arity)
    (h : invoke V f arguments s = .error (.fault e) u) :
    ∃ n env, t.Contains n ∧ n.binding? env = some f ∧
      ((∃ x, List.Duplicate x n.parameters ∧ e = { fault := .duplicateVariable x }) ∨
        n.parameters.Nodup ∧ ∃ x ∈ n.children, ∃ v v', V x v = .error (.fault e) v' ∧
          Tour.Visits (fun V => invoke V f arguments) V s x v) := by
  rcases hf with hprint | ⟨n, env, hn, hbinding⟩
  · rw [invoke_print hprint hlength] at h
    rcases bind_eq_error.mp h with h | ⟨_, _, -, h⟩
    · exact (textOf_ne_fault h).elim
    · cases h
  obtain ⟨harity, place, hbody⟩ := Node.body_of_binding? hbinding
  refine ⟨n, env, hn, hbinding, ?_⟩
  have hinvoke := invoke_code hbody hlength
  have hsize : (s.openedIn env).env.scope < (s.openedIn env).store.scopes.size := by
    simp [State.openedIn, Store.child]
  have hnew (x : Name) :
      ((s.openedIn env).store.scope (s.openedIn env).env.scope).variableNamed? x = none :=
    congrArg (Scope.variableNamed? · x) (Store.scope_child_size env)
  rw [hinvoke] at h
  obtain ⟨_, h, -⟩ := inChildOf_eq_error.mp h
  rcases bind_eq_error.mp h with hparameters | ⟨_, s', hparameters, h⟩
  · obtain ⟨x, -, he, hduplicate⟩ := bindParameters_fails hsize hparameters
    cases he
    exact .inl ⟨x, hduplicate (hnew x), rfl⟩
  · have hnodup := (nodup_of_bindParameters hsize (harity.trans hlength.symm) hparameters).1
    rcases bind_eq_error.mp h with hblock | ⟨w, _, -, h⟩
    · have hrelays : Relays (· ∈ n.children) (fun _ => False) fun V => block V n.children :=
        block_relays fun _ hx => hx
      obtain ⟨x, v, v', hx, hvisits, hv⟩ := (hrelays.exists_visits hblock).resolve_left id
      refine .inr ⟨hnodup, x, hx, v, v', hv, ?_⟩
      have hbody : (runCode place n.parameters arguments n.children).Visits V (s.openedIn env) x v :=
        .bind_of_eq_ok hparameters hvisits.bind_left
      exact hbody.inChildOf.congr fun V => congrFun (hinvoke V) s
    · cases w <;> cases h

/-! ## Calls -/

/-- In the state `s`, a call of the name with that many arguments finds a function that the node `n` of
the tree binds. -/
def Finds (t n : Node) (s : State Body String) (name : Name) (arity : Nat) : Prop :=
  ∃ ref f env, s.store.findFunction? s.env name arity = some (ref, f) ∧ t.Contains n ∧
    n.binding? env = some f

/-- How a call fails in the state `s`. Only the faults of looking the function up and of binding its
parameters are attached to the call. -/
inductive CallFails (t : Node) (depth : Nat) (call : Node) (name : Name) (nodes : List Node)
    (s : State Body String) (e : Located Fault) : Prop
  /-- No function is found. -/
  | undeclared : s.store.findFunction? s.env name nodes.length = none →
      e = (Fault.undeclaredFunction name nodes.length).attachedTo call → CallFails t depth call name nodes s e
  /-- An argument fails. -/
  | argument {a u m} : a ∈ nodes → walker.Visits depth call s a u → walker.Blames (depth - 1) a u e m →
      CallFails t depth call name nodes s e
  /-- Two parameters of the function have one name. -/
  | parameters {n x} : Finds t n s name nodes.length → List.Duplicate x n.parameters →
      e = (Fault.duplicateVariable x).attachedTo call → CallFails t depth call name nodes s e
  /-- A statement in the body of the function fails. -/
  | body {n a u m} : Finds t n s name nodes.length → n.parameters.Nodup → a ∈ n.children →
      walker.Visits depth call s a u → walker.Blames (depth - 1) a u e m →
      CallFails t depth call name nodes s e

variable {N : String → Prop} {depth : Nat}

/-- The evaluation of several nodes ends early with one of them. -/
theorem exists_visits_of_values {nodes : List Node} {l : Stop} (h : values V nodes s = .error l u) :
    ∃ n v v', n ∈ nodes ∧ Tour.Visits (fun V => values V nodes) V s n v ∧ V n v = .error l v' := by
  have hrelays : Relays (· ∈ nodes) (fun _ => False) fun V => values V nodes :=
    values_relays fun _ hn => hn
  exact (hrelays.exists_visits h).resolve_left id

/-- What fails while a call is evaluated: the lookup of the function, an argument, or what fails while the
function is run. -/
theorem callWith_fails {t : Node} {nodes : List Node}
    (hdeclares : ∀ ref f, s.store.findFunction? s.env name nodes.length = some (ref, f) → t.Declares f)
    (h : callWith V name nodes s = .error (.fault e) u) :
    s.store.findFunction? s.env name nodes.length = none ∧
        e = { fault := .undeclaredFunction name nodes.length } ∨
      (∃ a ∈ nodes, ∃ v v', V a v = .error (.fault e) v' ∧
        Tour.Visits (fun V => callWith V name nodes) V s a v) ∨
      ∃ n, Finds t n s name nodes.length ∧
        ((∃ x, List.Duplicate x n.parameters ∧ e = { fault := .duplicateVariable x }) ∨
          n.parameters.Nodup ∧ ∃ a ∈ n.children, ∃ v v', V a v = .error (.fault e) v' ∧
            Tour.Visits (fun V => callWith V name nodes) V s a v) := by
  cases hfind : s.store.findFunction? s.env name nodes.length with
  | none =>
    rw [callWith, bind_of_eq_error (lookupFunction_of_none hfind)] at h
    cases h
    exact .inl ⟨rfl, rfl⟩
  | some found =>
    obtain ⟨ref, f⟩ := found
    have hfound (V : Node → Run Value) : callWith V name nodes s = (values V nodes >>= invoke V f) s :=
      bind_of_eq_ok (lookupFunction_eq_ok.mpr ⟨hfind, rfl⟩)
    rw [hfound] at h
    refine .inr ?_
    rcases bind_eq_error.mp h with hvalues | ⟨vs, s', hvalues, hinvoke⟩
    · obtain ⟨a, v, v', ha, hvisits, hv⟩ := exists_visits_of_values hvalues
      exact .inl ⟨a, ha, v, v', hv, hvisits.bind_left.congr hfound⟩
    · have hlength := (length_of_values hvalues).trans (Store.arity_of_findFunction? hfind).symm
      obtain ⟨n, env, hn, hbinding, hfails⟩ := invoke_fails (hdeclares ref f hfind) hlength hinvoke
      refine .inr ⟨n, ⟨ref, f, env, hfind, hn, hbinding⟩, hfails.imp_right ?_⟩
      rintro ⟨hnodup, a, ha, v, v', hv, hvisits⟩
      have hnodes : Relays (fun _ => True) Stop.IsBare fun V => values V nodes :=
        values_relays fun _ _ => trivial
      exact ⟨hnodup, a, ha, v, v', hv, (hvisits.bind_right hnodes hvalues hv).congr hfound⟩

/-- **How calls fail.** -/
theorem callFails {t call : Node} {nodes : List Node} {type : Option Ty} {b : Option FunctionRef}
    (ht : t.IsProgram N) (hcall : call = .call name nodes type b place) (hcontains : t.Contains call)
    (hdeclares : ∀ ref f, s.store.findFunction? s.env name nodes.length = some (ref, f) → t.Declares f)
    (h : walker.Fails depth call s e) : CallFails t depth call name nodes s e := by
  subst hcall
  obtain ⟨s', hcall⟩ := h
  obtain ⟨l, htour, rfl⟩ := Walker.exists_tour hcall
  obtain ⟨d, rfl⟩ : ∃ d, depth = d + 1 := by
    cases depth with
    | zero => cases htour
    | succ d => exact ⟨d, rfl⟩
  -- a visit inside that fails with the fault has attached it
  have hinside {a : Node} {u v : State Body String} (ha : a.isPresent = true)
      (hvisits : walker.Visits (d + 1) (.call name nodes type b place) s a u)
      (hu : visit d a u = .error (.fault l) v) :
      ∃ m, walker.Blames d a u (l.attach (.call name nodes type b place)) m := by
    have hfails : walker.Fails d a u l := ⟨v, hu⟩
    rw [(hvisits.fails ha hfails).eq ⟨s', hcall⟩] at hfails
    obtain ⟨m, -, hm⟩ := hfails.exists_blames ha
    exact ⟨m, hm⟩
  rcases callWith_fails hdeclares htour with ⟨hfind, rfl⟩ | ⟨a, ha, u, v, hu, hvisits⟩ | ⟨n, hfinds, hfails⟩
  · exact .undeclared hfind (Located.attach_of_isPresent rfl)
  · obtain ⟨m, hm⟩ := hinside ((ht.isPart hcontains).isPresent_argument ha) hvisits hu
    exact .argument ha hvisits hm
  · rcases hfails with ⟨x, hx, rfl⟩ | ⟨hnodup, a, ha, u, v, hu, hvisits⟩
    · exact .parameters hfinds hx (Located.attach_of_isPresent rfl)
    · have ⟨_, _, _, _, hn, hbinding⟩ := hfinds
      obtain ⟨m, hm⟩ := hinside ((ht.isPart hn).isPresent_statement hbinding ha) hvisits hu
      exact .body hfinds hnodup ha hvisits hm

/-! ## Programs -/

/-- The declaration of a function binds it. -/
theorem binding_of_visit {n : Node} (hn : n.IsFunction N) (h : visit depth n s = .ok v t) :
    ∃ g, n.binding? s.env = some g ∧ t = s.withFunction g := by
  cases depth with
  | zero => cases h
  | succ d =>
    cases hn with
    | function parameters =>
      obtain ⟨_, _, hdeclare, h⟩ := bind_eq_ok.mp (attached_eq_ok.mp h)
      obtain ⟨-, rfl⟩ := pure_eq_ok.mp h
      obtain ⟨_, _, hget, hdeclare⟩ := bind_eq_ok.mp hdeclare
      obtain ⟨rfl, rfl⟩ := get_eq_ok.mp hget
      obtain ⟨_, _, hdefine, hunit⟩ := bind_eq_ok.mp hdeclare
      obtain ⟨-, -, rfl⟩ := defineFunction_eq_ok.mp hdefine
      obtain ⟨-, rfl⟩ := pure_eq_ok.mp hunit
      exact ⟨_, rfl, rfl⟩

/-- Functions are bound one after another. -/
theorem eq_withFunctions_of_values {fs : List Node} {vs : List Value} (hfs : ∀ f ∈ fs, f.IsFunction N)
    (h : values (visit depth) fs s = .ok vs t) :
    t = s.withFunctions (fs.filterMap (Node.binding? s.env)) := by
  induction fs generalizing s vs with
  | nil =>
    obtain ⟨-, rfl⟩ := pure_eq_ok.mp h
    exact s.withFunctions_nil.symm
  | cons f fs ih =>
    obtain ⟨hf, hrest⟩ := List.forall_mem_cons.mp hfs
    obtain ⟨v, s₁, hv, h⟩ := bind_eq_ok.mp h
    obtain ⟨vs, s₂, hvs, h⟩ := bind_eq_ok.mp h
    obtain ⟨-, rfl⟩ := pure_eq_ok.mp h
    obtain ⟨g, hbinding, rfl⟩ := binding_of_visit hf hv
    rw [List.filterMap_cons_some hbinding, ← State.withFunctions_cons]
    exact ih hrest hvs

/-- Several nodes are evaluated one after another. -/
theorem values_append_eq_ok {ns ms : List Node} {vs : List Value} :
    values V (ns ++ ms) s = .ok vs u ↔
      ∃ xs ys t, values V ns s = .ok xs t ∧ values V ms t = .ok ys u ∧ vs = xs ++ ys := by
  induction ns generalizing s u vs with
  | nil => simp [values, eq_comm]
  | cons n ns ih =>
    simp only [List.cons_append, values, bind_eq_ok, pure_eq_ok, ih]
    constructor
    · rintro ⟨v, s₁, hv, _, _, ⟨xs, ys, t, hxs, hys, rfl⟩, rfl, rfl⟩
      exact ⟨v :: xs, ys, t, ⟨v, s₁, hv, xs, t, hxs, rfl, rfl⟩, hys, rfl⟩
    · rintro ⟨_, ys, t, ⟨v, s₁, hv, xs, _, hxs, rfl, rfl⟩, hys, rfl⟩
      exact ⟨v, s₁, hv, _, _, ⟨xs, ys, _, hxs, hys, rfl⟩, rfl, rfl⟩

/-- In the state `s`, all parts of a program have been evaluated. -/
def Prepares (depth : Nat) (t : Node) (s : State Body String) : Prop :=
  ∃ vs, values (visit depth) t.children (start {} none) = .ok vs s

/-- A function is not found in the program's scope if none in it has the signature. -/
theorem findFunction?_eq_none_iff (h : s.env = (start {} none).env) {arity : Nat} :
    s.store.findFunction? s.env name arity = none ↔
      (name, arity) ∉ (s.store.scope 0).functions.map Function.signature := by
  have hvisible : s.env.visible = [0] := congrArg Env.visible h
  rw [Store.findFunction?, hvisible]
  simp [Scope.functionNamed?, Function.signature, Prod.ext_iff]

/-- When all its parts are evaluated, a program finds its main function unless it lacks one. -/
theorem Prepares.findFunction?_eq_none_iff {t : Node} (ht : t.IsProgram N) (h : Prepares depth t s) :
    s.store.findFunction? s.env "main" 0 = none ↔ t.LacksMain := by
  obtain ⟨vs, h⟩ := h
  cases ht with
  | @source gs fs hgs hfs =>
    rw [Run.findFunction?_eq_none_iff (env_of_values_start h).1]
    obtain ⟨xs, ys, s₁, hxs, hys, rfl⟩ := values_append_eq_ok.mp h
    obtain ⟨hscope, hsize⟩ := scope_of_values_start hxs
    have hglobal : ∀ g ∈ gs, g.signature? = none := fun g hg => by cases hgs g hg <;> rfl
    have hfunctions : (s.store.scope 0).functions.map Function.signature =
        (some "print", 1) :: fs.filterMap Node.signature? := by
      rw [eq_withFunctions_of_values hfs hys, State.withFunctions, hscope, Store.scope_modifyScope hsize,
        ← hscope, List.map_append, functions_of_values_globals hgs hxs, Node.map_signature_bindings]
      rfl
    rw [hfunctions]
    simp only [Node.LacksMain, Node.children, List.mem_append, or_imp, forall_and, List.mem_cons,
      List.mem_filterMap]
    refine ⟨fun h => ⟨fun g hg hmain => ?_, fun f hf hmain => h (.inr ⟨f, hf, hmain⟩)⟩, fun h hmain => ?_⟩
    · cases (hglobal g hg).symm.trans hmain
    · rcases hmain with hprint | ⟨f, hf, hmain⟩
      · exact absurd hprint (by decide)
      · exact h.2 f hf hmain

/-- A program that lacks a main function is at fault itself. -/
theorem Prepares.visit_eq {t : Node} (ht : t.IsProgram N) (h : Prepares depth t s) (hmain : t.LacksMain) :
    visit (depth + 1) t (start {} none) =
      .error (.fault ((Fault.undeclaredFunction "main" 0).attachedTo t)) s := by
  have hnone := (h.findFunction?_eq_none_iff ht).mpr hmain
  obtain ⟨vs, h⟩ := h
  cases ht with
  | @source gs fs =>
    obtain ⟨xs, ys, s₁, hxs, hys, -⟩ := values_append_eq_ok.mp h
    have hrun : step (visit depth) depth (.source gs fs) (start {} none) =
        .error (.raised (.undeclaredFunction "main" 0)) s := by
      rw [step, runProgram, bind_of_eq_ok hxs, bind_of_eq_ok hys,
        bind_of_eq_error (lookupFunction_of_none hnone)]
    exact attached_of_eq_error hrun

variable {g : Fault}

/-- Evaluations of nodes only have faults that are attached to nodes. -/
theorem ne_raised {n : Node} (hn : n.isPresent = true) : visit depth n s ≠ .error (.raised g) u :=
  fun h => Walker.Fails.not_isBare (W := walker) ⟨u, h⟩ hn (.raised g)

theorem values_ne_raised {nodes : List Node} (hnodes : ∀ n ∈ nodes, n.isPresent = true) :
    values (visit depth) nodes s ≠ .error (.raised g) u := by
  intro h
  obtain ⟨n, v, v', hn, -, hv⟩ := exists_visits_of_values h
  exact ne_raised (hnodes n hn) hv

/-- A function without parameters is not at fault itself. -/
theorem invoke_ne_raised {t : Node} (ht : t.IsProgram N) (hf : t.Declares f) (harity : f.arity = 0) :
    invoke (visit depth) f [] s ≠ .error (.raised g) u := by
  intro h
  have hlength : ([] : List Value).length = f.arity := harity.symm
  obtain ⟨n, env, hn, hbinding, hfails⟩ := invoke_fails hf hlength h
  rcases hfails with ⟨x, hx, -⟩ | ⟨-, a, ha, v, v', hv, -⟩
  · have hlength := (Node.body_of_binding? hbinding).1.trans harity
    rw [List.eq_nil_of_length_eq_zero hlength] at hx
    cases hx
  · exact ne_raised ((ht.isPart hn).isPresent_statement hbinding ha) hv

theorem inside_holds_start (t : Node) (depth : Nat) : (Regime.inside t depth).Holds (start {} none) :=
  .start (Regime.inside_lawful t depth).toStable (fun _ hf => .inl hf) trivial

theorem Prepares.holds {t : Node} (h : Prepares depth t s) : (Regime.inside t (depth + 1)).Holds s := by
  obtain ⟨vs, h⟩ := h
  have hR := Regime.inside_lawful t (depth + 1)
  have hchild (n : Node) (hn : n ∈ t.children) : t.Contains n ∧ (depth < depth + 1 → n ≠ t) :=
    ⟨.child .self hn, fun _ => ne_of_apply_ne Node.height (Nat.ne_of_lt (Node.height_lt_of_mem_children hn))⟩
  have hvalues := (upheld_visit hR (fun _ _ _ => trivial) depth).values hR (inside_holds_start t _) hchild
  exact (hvalues.of_eq_ok h).2

/-- What a lookup finds was declared in the program. -/
theorem Regime.Holds.declares {t : Node} {d arity : Nat} {ref : FunctionRef}
    (h : (Regime.inside t d).Holds s) (hfind : s.store.findFunction? s.env name arity = some (ref, f)) :
    t.Declares f := h.runs_of_functionAt? (Store.functionAt?_of_findFunction? hfind)

/-- **How programs fail.** Everything in a program has been evaluated and it lacks a main function, or a
visit inside fails. -/
theorem Prepares.or_inside {t : Node} (ht : t.IsProgram N) (h : walker.Fails (depth + 1) t (start {} none) e) :
    ((∃ s, Prepares depth t s) ∧ t.LacksMain) ∨ ∃ n u, n.isPresent = true ∧
      walker.Visits (depth + 1) t (start {} none) n u ∧ walker.Fails depth n u e := by
  rcases h.here_or_inside ht.isPresent with ⟨-, f, u, htour, -⟩ | ⟨n, u, -, hn, hvisits, hfails⟩
  · refine .inl ?_
    have hprogram := ht
    cases ht with
    | @source gs fs hgs hfs =>
    replace htour : runProgram (visit depth) gs fs (start {} none) = .error (.raised f) u := htour
    rcases bind_eq_error.mp htour with h | ⟨xs, s₁, hxs, h⟩
    · exact (values_ne_raised (fun g hg => (hgs g hg).isPresent) h).elim
    rcases bind_eq_error.mp h with h | ⟨ys, s₂, hys, h⟩
    · exact (values_ne_raised (fun f hf => (hfs f hf).isPresent) h).elim
    have hprepares : Prepares depth (.source gs fs) s₂ :=
      ⟨_, values_append_eq_ok.mpr ⟨xs, ys, s₁, hxs, hys, rfl⟩⟩
    refine ⟨⟨s₂, hprepares⟩, (hprepares.findFunction?_eq_none_iff hprogram).mp ?_⟩
    cases hfind : s₂.store.findFunction? s₂.env "main" 0 with
    | none => rfl
    | some found =>
      rw [bind_of_eq_ok (lookupFunction_eq_ok.mpr ⟨hfind, rfl⟩)] at h
      exact (invoke_ne_raised hprogram (hprepares.holds.declares hfind)
        (Store.arity_of_findFunction? hfind) h).elim
  · exact .inr ⟨n, u, hn, hvisits, hfails⟩

/-! ## Runs -/

/-- Every call in a run fails in one of these ways. -/
theorem passes_callFails {t : Node} (ht : t.IsProgram N) (depth : Nat) :
    Passes (fun k n s => ∀ name nodes type b place, n = .call name nodes type b place →
      ∀ e, walker.Fails k n s e → CallFails t k n name nodes s e) depth t (start {} none) := by
  have hpasses := Regime.passes (Regime.inside_lawful t depth)
    (passes_of_forall (fun _ _ _ => trivial) depth t (start {} none))
    ⟨.self, fun h => absurd h (Nat.lt_irrefl _)⟩ (inside_holds_start t depth)
  refine hpasses.1.mono fun k n s hsettled name nodes type b place hn e he => ?_
  obtain ⟨hgood, hholds, -⟩ := hsettled
  exact callFails ht hn hgood.1 (fun _ _ hfind => hholds.declares hfind) he

/-- The run of the program in the depth may come to the node in the depth `k` and in the state `u`. The
program itself is only evaluated first. -/
structure Reached (t : Node) (depth k : Nat) (n : Node) (u : State Body String) : Prop where
  deeper : k < depth ∨ k = depth ∧ u = start {} none
  good : (Regime.inside t depth).good k n
  holds : (Regime.inside t depth).Holds u

theorem reached_start (t : Node) (depth : Nat) : Reached t depth depth t (start {} none) :=
  ⟨.inr ⟨rfl, rfl⟩, ⟨.self, fun h => absurd h (Nat.lt_irrefl _)⟩, inside_holds_start t depth⟩

/-- Every visit is one level deeper than the one around it. -/
theorem Reached.visits {t n m : Node} {k : Nat} (h : Reached t (depth + 1) k n u)
    (hvisits : walker.Visits k n u m s) : Reached t (depth + 1) (k - 1) m s := by
  obtain ⟨hgood, hholds⟩ :=
    Regime.holds_of_visits (Regime.inside_lawful t _) (fun _ _ _ => trivial) hvisits h.good h.holds
  refine ⟨.inl ?_, hgood, hholds⟩
  rcases h.deeper with hk | ⟨rfl, -⟩ <;> omega

/-- What a run blames raises the fault. -/
theorem exists_raises_of_failsAt {t m : Node} (ht : t.IsProgram N)
    (h : walker.Fails (depth + 1) t (start {} none) e)
    (hm : walker.FailsAt (depth + 1) t (start {} none) m) :
    ∃ k u, walker.Raises k m u e ∧ Reached t (depth + 1) k m u := by
  obtain ⟨k, u, hreached, hraises⟩ :=
    hm.exists_raises ht.isPresent h (fun hvisits hn => Reached.visits hn hvisits) (reached_start t _)
  exact ⟨k, u, hraises, hreached⟩

/-- **Whom a run blames.** It is a node of the program; it is the program just if that lacks a main
function, and a call only for a function that is not found or parameters that have one name. -/
theorem blames_of_run {t : Node} (ht : t.IsProgram N) (h : t.run depth = .error (.fault e) s) :
    ∃ m, walker.Blames depth t (start {} none) e m ∧ m.isPresent = true ∧ t.Contains m ∧
      (m = t ↔ (∃ s, Prepares (depth - 1) t s) ∧ t.LacksMain) ∧
      ∀ name nodes type b place, m = .call name nodes type b place →
        e.fault = .undeclaredFunction name nodes.length ∨ ∃ x, e.fault = .duplicateVariable x := by
  obtain ⟨d, rfl⟩ : ∃ d, depth = d + 1 := by
    cases depth with
    | zero => cases h
    | succ d => exact ⟨d, rfl⟩
  have hfails : walker.Fails (d + 1) t (start {} none) e := ⟨s, h⟩
  obtain ⟨m, hm, hblames⟩ := hfails.exists_blames ht.isPresent
  obtain ⟨k, u, hraises, hdeeper, ⟨hcontains, hinside⟩, hholds⟩ :=
    exists_raises_of_failsAt ht hfails ((hblames.failsAt_iff m).mpr rfl)
  refine ⟨m, hblames, hm, hcontains, ⟨?_, ?_⟩, ?_⟩
  · rintro rfl
    obtain ⟨rfl, rfl⟩ := hdeeper.resolve_left fun hk => hinside hk rfl
    refine (Prepares.or_inside ht hfails).resolve_right ?_
    rintro ⟨n, u, hn, hvisits, hfailed⟩
    exact hraises.not_fails hn hvisits hfailed
  · rintro ⟨⟨s', hprepares⟩, hmain⟩
    cases h.symm.trans (hprepares.visit_eq ht hmain)
    exact (Option.some.inj hblames.node).symm
  · rintro name nodes type b place hcall
    cases callFails ht hcall hcontains (fun _ _ hfind => hholds.declares hfind) hraises.1 with
    | undeclared _ he => exact .inl (congrArg Located.fault he)
    | argument _ hvisits hblames => exact (hraises.not_blames hvisits hblames).elim
    | parameters _ _ he => exact .inr ⟨_, congrArg Located.fault he⟩
    | body _ _ _ hvisits hblames => exact (hraises.not_blames hvisits hblames).elim

end Run

end PlcLang
