import Mathlib.Data.List.Find
import PlcLang.Proofs.Evaluation.Constants
import PlcLang.Proofs.Evaluation.Simulation
import PlcLang.Proofs.Grammar.Parsed

/-!
# The order of functions

The functions of a program may stand in any order. The globals are evaluated before any of them is bound,
all of them are bound before the main function is called, and they remember the scope in which they were
bound, not what it contained.

* `Node.signature?`: the name and the number of parameters of a function.
* `Run.values_functions`: what the functions of a program bind.
* `Run.states_withFunctions`: their order does not matter.
* `Node.run_permuted`: the result.
-/

namespace PlcLang

/-- The name and the number of parameters of a function. -/
def Function.signature {β : Type} (f : Function β) : Name × Nat := (f.name, f.arity)

namespace Node

/-! ## Operands of parsed trees -/

section

variable {N : String → Prop} {n : Node}

theorem IsExpression.isOperand (h : n.IsExpression N) : n.isOperand = true := by cases h <;> rfl

theorem IsOptional.isOperand (h : n.IsOptional N) : n.isOperand = true := by
  rcases h with rfl | h
  · rfl
  · exact h.isOperand

/-- In a program there are expressions in the positions of expressions. -/
theorem IsPart.hasOperands (h : IsPart N n) : n.HasOperands := by
  intro e he
  cases h with
  | program h | function h => cases h; cases he
  | missing => cases he
  | global h =>
    cases h with
    | list => exact List.mem_singleton.mp he ▸ rfl
    | mutable _ _ hv => exact List.mem_singleton.mp he ▸ hv.isOperand
    | immutable _ _ hv => exact List.mem_singleton.mp he ▸ hv.isOperand
  | case hv => exact List.mem_singleton.mp he ▸ hv.isOperand
  | list hes => exact (hes e he).isOperand
  | expression h =>
    cases h with
    | literal => cases he
    | reference => exact List.mem_singleton.mp he ▸ rfl
    | group h | item _ h => exact List.mem_singleton.mp he ▸ h.isOperand
    | call _ hes => exact (hes e he).isOperand
    | binary _ hl _ hr =>
      rcases List.mem_pair.mp he with rfl | rfl
      · exact hl.isOperand
      · exact hr.isOperand
  | statement h =>
    cases h with
    | expressionStatement h | conditional h | switch _ h | whileLoop h | returning h =>
      exact List.mem_singleton.mp he ▸ h.isOperand
    | declaration _ _ hv => exact List.mem_singleton.mp he ▸ hv.isOperand
    | assignment hr hv =>
      rcases List.mem_pair.mp he with rfl | rfl
      · exact hr.isOperand
      · exact hv.isOperand

theorem IsPart.everywhere_hasOperands (h : IsPart N n) : n.Everywhere HasOperands :=
  fun _ hm => (h.of_contains hm).hasOperands

end

/-! ## Functions -/

/-- The name and the number of parameters of a function. -/
def signature? : Node → Option (Name × Nat)
  | function name parameters .. => some (name, parameters.length)
  | _ => none

/-- No part of the program is a main function. -/
def LacksMain (t : Node) : Prop := ∀ n ∈ t.children, n.signature? ≠ some (some "main", 0)

/-- What a function binds in an environment. -/
def binding? (env : Env) : Node → Option (Function Body)
  | function name parameters _ _ statements _ place =>
    some { name, parameterTypes := parameters.map fun _ => .any, returnType := .any,
           body := some (.code env parameters statements place), origin := place }
  | _ => none

theorem signature_of_binding? {env : Env} {n : Node} {f : Function Body} (h : n.binding? env = some f) :
    n.signature? = some f.signature := by
  cases n <;> cases h
  rw [Function.signature, Function.arity, List.length_map]
  rfl

theorem map_signature_bindings (env : Env) (fs : List Node) :
    (fs.filterMap (binding? env)).map Function.signature = fs.filterMap signature? := by
  rw [List.map_filterMap]
  refine List.filterMap_congr fun n _ => ?_
  cases hn : n.binding? env with
  | some f => exact (signature_of_binding? hn).symm
  | none => cases n <;> first | rfl | cases hn

/-! ## Globals -/

variable {N : String → Prop} {gs : List Node}

theorem allExposed_of_isGlobal (h : ∀ g ∈ gs, g.IsGlobal N) : allExposed gs = gs := by
  induction gs with
  | nil => rfl
  | cons g gs ih =>
    obtain ⟨hg, hgs⟩ := List.forall_mem_cons.mp h
    rw [allExposed, ih hgs]
    cases hg <;> rfl

/-- Globals bind no functions. -/
theorem IsGlobal.not_bindsFunction {n : Node} {f : Function Body} (h : n.IsGlobal N) : ¬ n.BindsFunction f := by
  cases h <;> exact id

end Node

/-- The state with more functions in the active scope. -/
def State.withFunctions {β ρ : Type} (s : State β ρ) (fs : List (Function β)) : State β ρ :=
  { s with store := s.store.modifyScope s.env.scope fun sc => { sc with functions := sc.functions ++ fs } }

namespace State

variable {β ρ : Type} (s : State β ρ)

theorem withFunctions_nil : s.withFunctions [] = s := by
  unfold withFunctions
  rw [Store.modifyScope_of_forall_eq fun sc => by rw [List.append_nil]]

theorem withFunctions_cons (f : Function β) (fs : List (Function β)) :
    (s.withFunction f).withFunctions fs = s.withFunctions (f :: fs) := by
  unfold withFunctions withFunction
  rw [Store.modifyScope_modifyScope]
  simp only [Function.comp_def, List.append_assoc, List.singleton_append]

/-- A function leaves other signatures unbound. -/
theorem functionNamed?_withFunction {s : State β ρ} {f : Function β} {x : Name × Nat}
    (hs : s.env.scope < s.store.scopes.size) (hne : f.signature ≠ x)
    (hx : (s.store.scope s.env.scope).functionNamed? x.1 x.2 = none) :
    ((s.withFunction f).store.scope s.env.scope).functionNamed? x.1 x.2 = none := by
  unfold Scope.functionNamed? at hx ⊢
  rw [withFunction]
  dsimp only
  rw [Store.scope_modifyScope hs, List.find?_append, hx, List.find?_singleton, Option.none_or, if_neg]
  simpa [Function.signature, Prod.ext_iff] using hne

end State

namespace Run

open Walk

variable {N : String → Prop} {s : State Body String} {gs fs fs' : List Node}

/-! ## What programs bind -/

/-- Globals are evaluated in the first scope, and afterwards there is no function in it but `print`. -/
theorem functions_of_values_globals {depth : Nat} (hgs : ∀ g ∈ gs, g.IsGlobal N) {vs : List Value}
    (h : values (visit depth) gs (start {} none) = .ok vs s) :
    (s.store.scope s.env.scope).functions = ((start {} none).store.scope 0).functions := by
  have hoperands : True → ∀ g ∈ gs, g.Everywhere Node.HasOperands :=
    fun _ g hg => (Node.IsPart.global (hgs g hg)).everywhere_hasOperands
  obtain ⟨_, functions, hgrows, hmade⟩ := (visit_tidy depth).values hoperands (start {} none) (by decide)
  obtain ⟨-, ms, hms, hbinds⟩ := hmade trivial
  rw [Node.allExposed_of_isGlobal hgs] at hms
  rw [after_of_ok h] at hgrows
  rw [hgrows.env_eq, hgrows.active.functions_eq]
  cases hbinds with
  | nil => exact List.append_nil _
  | cons hm => exact ((hgs _ (hms.subset List.mem_cons_self)).not_bindsFunction hm).elim

/-- A function that is not bound yet is bound. -/
theorem visit_function {f : Node} (hf : f.IsFunction N) (depth : Nat) : ∃ g, f.binding? s.env = some g ∧
    ((s.store.scope s.env.scope).functionNamed? g.name g.arity = none →
      visit (depth + 1) f s = .ok .nil (s.withFunction g)) := by
  cases hf with
  | function parameters =>
    refine ⟨_, rfl, fun hnew => attached_eq_ok.mpr ?_⟩
    have hdefine := (defineFunction_eq_ok (s := s)).mpr ⟨hnew, rfl, rfl⟩
    refine bind_eq_ok.mpr ⟨(), _, ?_, rfl⟩
    exact bind_eq_ok.mpr ⟨s, s, rfl, bind_eq_ok.mpr ⟨_, _, hdefine, rfl⟩⟩

/-- Functions with distinct signatures that are not bound yet are bound in their order. -/
theorem values_functions (hfs : ∀ f ∈ fs, f.IsFunction N) (hs : s.env.scope < s.store.scopes.size)
    (hnodup : (fs.filterMap Node.signature?).Nodup)
    (hnew : ∀ x ∈ fs.filterMap Node.signature?, (s.store.scope s.env.scope).functionNamed? x.1 x.2 = none)
    (depth : Nat) :
    ∃ vs, values (visit (depth + 1)) fs s = .ok vs (s.withFunctions (fs.filterMap (Node.binding? s.env))) := by
  induction fs generalizing s with
  | nil => exact ⟨[], by rw [List.filterMap_nil, State.withFunctions_nil]; rfl⟩
  | cons f fs ih =>
    obtain ⟨hf, hfs⟩ := List.forall_mem_cons.mp hfs
    obtain ⟨g, hbinding, hvisit⟩ := visit_function (s := s) hf depth
    rw [List.filterMap_cons_some (Node.signature_of_binding? hbinding)] at hnodup hnew
    obtain ⟨hg, hnew⟩ := List.forall_mem_cons.mp hnew
    obtain ⟨hmem, hnodup⟩ := List.nodup_cons.mp hnodup
    have hsize : s.env.scope < (s.withFunction g).store.scopes.size := by
      rwa [State.withFunction, Store.size_modifyScope]
    obtain ⟨vs, hvs⟩ := ih (s := s.withFunction g) hfs hsize hnodup fun x hx =>
      State.functionNamed?_withFunction hs (fun heq => hmem (heq ▸ hx)) (hnew x hx)
    rw [List.filterMap_cons_some hbinding, ← State.withFunctions_cons]
    exact ⟨.nil :: vs, bind_eq_ok.mpr ⟨_, _, hvisit hg, bind_eq_ok.mpr ⟨_, _, hvs, rfl⟩⟩⟩

/-! ## Orders of functions -/

/-- Every tree and every block corresponds to itself only. -/
def identical : Pairing := ⟨Eq, Eq⟩

theorem identical_lawful : identical.Lawful where
  refl _ := rfl
  parts h := h ▸ Pairing.Parts.refl (fun _ => rfl) (fun _ => rfl) _
  block {ns ms} h := by
    obtain rfl : ns = ms := h
    cases ns with
    | nil => exact .inl ⟨rfl, rfl⟩
    | cons n ns => exact .inr ⟨n, ns, n, ns, rfl, rfl, rfl, fun _ => rfl⟩

/-- The order in which functions with distinct signatures were bound does not matter. -/
theorem states_withFunctions {fs gs : List (Function Body)} (h : fs.Perm gs)
    (hnodup : (fs.map Function.signature).Nodup) (s : State Body String) :
    identical.States (s.withFunctions fs) (s.withFunctions gs) := by
  refine (Pairing.States.refl (P := identical) (fun _ => rfl) s).modifyScope rfl fun name arity => ?_
  have hfind : (fs.find? fun f => f.name = name && f.arity = arity) =
      gs.find? fun f => f.name = name && f.arity = arity := by
    refine List.find?_eq_find?_of_perm h fun f hf g hg => ?_
    simp only [Bool.and_eq_true, decide_eq_true_eq] at hf hg
    refine List.inj_on_of_nodup_map hnodup hf.1 hg.1 ?_
    rw [Function.signature, Function.signature, hf.2.1, hf.2.2, hg.2.1, hg.2.2]
  unfold Scope.functionNamed?
  rw [List.find?_append, List.find?_append, hfind]
  exact Pairing.Functions.rel_refl (fun _ => rfl) _

/-- Functions with distinct signatures that are not bound yet may be bound in any order. -/
theorem ends_values_functions (hfs : ∀ f ∈ fs, f.IsFunction N) (hs : s.env.scope < s.store.scopes.size)
    (hnodup : (fs.filterMap Node.signature?).Nodup)
    (hnew : ∀ x ∈ fs.filterMap Node.signature?, (s.store.scope s.env.scope).functionNamed? x.1 x.2 = none)
    (h : fs.Perm fs') (depth : Nat) :
    identical.Ends (fun _ _ => True) (values (visit depth) fs s) (values (visit depth) fs' s) := by
  have hsignatures := h.filterMap Node.signature?
  cases depth with
  | zero =>
    cases fs with
    | nil => exact h.nil_eq ▸ ⟨trivial, .refl (fun _ => rfl) s⟩
    | cons f fs =>
      cases fs' with
      | nil => cases h.eq_nil
      | cons f' fs' => exact ⟨.unfinished, .refl (fun _ => rfl) s⟩
  | succ depth =>
    obtain ⟨vs, hvs⟩ := values_functions hfs hs hnodup hnew depth
    obtain ⟨vs', hvs'⟩ := values_functions (fun f hf => hfs f (h.mem_iff.mpr hf)) hs
      (hsignatures.nodup_iff.mp hnodup) (fun x hx => hnew x (hsignatures.mem_iff.mpr hx)) depth
    rw [hvs, hvs']
    refine ⟨trivial, states_withFunctions (h.filterMap _) ?_ s⟩
    rwa [Node.map_signature_bindings]

/-- The functions of a program may stand in any order. -/
theorem ends_runProgram (hgs : ∀ g ∈ gs, g.IsGlobal N) (hfs : ∀ f ∈ fs, f.IsFunction N)
    (hnodup : (fs.filterMap Node.signature?).Nodup) (hprint : (some "print", 1) ∉ fs.filterMap Node.signature?)
    (h : fs.Perm fs') (depth : Nat) :
    identical.Ends Eq (runProgram (visit depth) gs fs (start {} none))
      (runProgram (visit depth) gs fs' (start {} none)) := by
  unfold runProgram
  cases hvs : values (visit depth) gs (start {} none) with
  | error e s =>
    rw [bind_of_eq_error hvs, bind_of_eq_error hvs]
    exact ⟨.refl (fun _ => rfl) e, .refl (fun _ => rfl) s⟩
  | ok vs s =>
    rw [bind_of_eq_ok hvs, bind_of_eq_ok hvs]
    obtain ⟨hscope, hsize⟩ := scope_of_values_start hvs
    -- no function is bound yet but `print`
    have hnew (x : Name × Nat) (hx : x ∈ fs.filterMap Node.signature?) :
        (s.store.scope s.env.scope).functionNamed? x.1 x.2 = none := by
      rw [Scope.functionNamed?, functions_of_values_globals hgs hvs]
      refine List.find?_eq_none.mpr fun f hf => ?_
      obtain rfl := List.mem_singleton.mp hf
      have hne : (some "print", 1) ≠ x := fun heq => hprint (heq ▸ hx)
      simpa [Function.arity, Prod.ext_iff] using hne
    refine (ends_values_functions hfs (hscope ▸ hsize) hnodup hnew h depth).bind fun _ _ _ => ?_
    exact InStep.lookupFunction.bind fun _ _ hf => (visit_simulates identical_lawful depth).invoke identical_lawful hf

end Run

namespace Node

open Run

/-- **The functions of a program may stand in any order.** Take a program whose functions have distinct
signatures, none of which is that of `print`, and a tree that differs from it in the slots of the analysis
at most. If its functions are put in another order, the program runs as before: in every depth both runs
have printed the same text and return the same value, or they fail with the same fault at the same place
and at the same node, which may be the program itself, or both are cut off. -/
theorem run_permuted {text : String} {t : Node} (h : parse? text = some t) {gs fs fs' : List Node}
    (hd : (source gs fs).skeleton = t.skeleton) (hnodup : (fs.filterMap signature?).Nodup)
    (hprint : (some "print", 1) ∉ fs.filterMap signature?) (hperm : fs.Perm fs') (depth : Nat) :
    SameEnd (fun n m => n = m ∨ n = source gs fs ∧ m = source gs fs') ((source gs fs).run depth)
      ((source gs fs').run depth) := by
  cases (isProgram_of_parse? h).of_skeleton_eq hd with
  | source hgs hfs =>
    cases depth with
    | zero => exact .error rfl .unfinished
    | succ depth =>
      have hends := (ends_runProgram hgs hfs hnodup hprint hperm depth).sameEnd
      exact SameEnd.attached (x := runProgram (visit depth) gs fs) (y := runProgram (visit depth) gs fs')
        (hends.imp fun _ _ => .inl) (.inr ⟨rfl, rfl⟩) rfl rfl

/-- A main function and two functions of one name, each of which needs the next. -/
def overloading : String :=
  "FUN main(): Any DO RETURN f(1); END FUN f(n: Any): Any DO RETURN f() + n; END " ++
  "FUN f(): Any DO RETURN 3; END"

/-- The signatures of the example, and what it returns. -/
def returnsFour : Node → Bool
  | source gs fs =>
    fs.filterMap signature? = [(some "main", 0), (some "f", 1), (some "f", 0)] &&
      ((source gs fs).run 9 matches .ok (.integer 4) _)
  | _ => false

theorem run_permuted_overloading :
    ∃ gs fs, parse? overloading = some (source gs fs) ∧
      fs.filterMap signature? = [(some "main", 0), (some "f", 1), (some "f", 0)] ∧
      ((source gs fs).run 9 matches .ok (.integer 4) _) = true ∧
      SameEnd (fun n m => n = m ∨ n = source gs fs ∧ m = source gs fs.reverse) ((source gs fs).run 9)
        ((source gs fs.reverse).run 9) := by
  have hparsed : (parse? overloading).any returnsFour = true := by decide +kernel
  obtain ⟨t, ht, hreturns⟩ := (Option.any_eq_true _ _).mp hparsed
  cases t with
  | source gs fs =>
    obtain ⟨hsignatures, hrun⟩ := Bool.and_eq_true_iff.mp hreturns
    have hsignatures := of_decide_eq_true hsignatures
    refine ⟨gs, fs, ht, hsignatures, hrun, ?_⟩
    refine run_permuted ht rfl ?_ ?_ (List.reverse_perm fs).symm 9
    · rw [hsignatures]
      decide
    · rw [hsignatures]
      decide
  | _ => cases hreturns

end Node

end PlcLang
