import PlcLang.Proofs.Evaluation.Changes
import PlcLang.Proofs.Evaluation.Scopes
import PlcLang.Proofs.Typing.Skeleton

/-!
# Constants

A constant holds what its initial value was evaluated to as long as the run goes on, whether the
analysis accepts the program or not and whether the run succeeds or not. Variables of the same name in
other scopes do not matter, nor do assignments, since all of them ask first which variable they mean.

* `Store.HoldsConstant`: a constant and what it holds.
* `Run.passes_holdsConstant`: it is kept.
* `Run.assignment_immutable`: assignments to constants fail at once.
* `Node.run_keeps_constants`: the result.
-/

namespace PlcLang

open Walk

/-- The reference denotes a constant, which holds the value. -/
def Store.HoldsConstant (S : Store Body) (ref : VariableRef) (value : Value) : Prop :=
  ∃ v, S.variableAt? ref = some v ∧ v.isMutable = false ∧ v.value = value

variable {s t : State Body String} {ref : VariableRef} {value : Value}

/-- No change reaches a constant. -/
theorem State.Becomes.holdsConstant (h : s.Becomes t) (hs : s.store.HoldsConstant ref value) :
    t.store.HoldsConstant ref value := by
  obtain ⟨v, hv, hmutable, hvalue⟩ := hs
  obtain ⟨w, hw, -, hkept⟩ := h.variableAt? hv
  exact ⟨v, hkept hmutable ▸ hw, hmutable, hvalue⟩

/-- What is bound under a new name in the active scope is found there. -/
theorem State.variableAt?_withVariable (hs : s.env.scope < s.store.scopes.size) {v : Variable}
    (hv : (s.store.scope s.env.scope).variableNamed? v.name = none) :
    (s.withVariable v).store.variableAt? ⟨s.env.scope, v.name⟩ = some v := by
  rw [Store.variableAt?, State.withVariable, Store.scope_modifyScope hs, Scope.variableNamed?,
    List.find?_append]
  rw [Scope.variableNamed?] at hv
  simp [hv]

namespace Run

variable {depth : Nat} {name : Name} {mutable : Option Bool}

/-- **A constant is kept**: it holds the same value whenever a node is evaluated and when that has
ended. -/
theorem passes_holdsConstant (hs : s.store.HoldsConstant ref value) (depth : Nat) (n : Node) :
    Passes (fun depth n t => t.store.HoldsConstant ref value ∧
      ((visit depth n).after t).store.HoldsConstant ref value) depth n s :=
  (passes_becomes depth n s).mono fun _ _ _ ⟨ht, ht'⟩ =>
    ⟨ht.holdsConstant hs, ht'.holdsConstant hs⟩

/-- **An assignment to a constant fails at once**: however its parts would be evaluated, they are not,
and the state is the one in which it began. -/
theorem assignment_immutable {offset node : Node} {type : Option Ty} {b : Option VariableRef}
    {p q : Place} {v : Variable} (hfind : s.store.findVariable? s.env name = some (ref, v))
    (hv : v.isMutable = false) (V : Node → Run Value) (rounds : Nat) :
    attached (.assignment (.access name offset type b p) node q)
        (step V rounds (.assignment (.access name offset type b p) node q)) s =
      .error (.fault (Located.attach { fault := .immutable name }
        (.assignment (.access name offset type b p) node q))) s := by
  have hassign : assign V name offset node s = .error (.raised (.immutable name)) s := by
    refine (bind_of_eq_ok (lookupVariable_eq_ok.mpr ⟨hfind, rfl⟩)).trans ?_
    apply bind_of_eq_error
    rw [hv]
    rfl
  have hstep : step V rounds (.assignment (.access name offset type b p) node q) s =
      .error (.raised (.immutable name)) s := bind_of_eq_error hassign
  rw [attached, hstep]
  rfl

/-! ## Globals -/

/-- A global is bound to what its value was evaluated to. -/
theorem variableAt?_of_visit_global {typeName : Name} {node : Node} {b : Option VariableRef}
    {p : Place} {w : Value} (hs : s.env.scope < s.store.scopes.size)
    (h : visit (depth + 1) (.global name typeName mutable node b p) s = .ok w t) :
    ∃ v s₁, valueOf (visit depth) node s = .ok v s₁ ∧
      t.store.variableAt? ⟨s.env.scope, name⟩ = some { name, mutable, value := v, origin := p } := by
  obtain ⟨_, _, hdeclare, hw⟩ := bind_eq_ok.mp (attached_eq_ok.mp h)
  obtain ⟨v, s₁, hv, hdefine⟩ := bind_eq_ok.mp hdeclare
  obtain ⟨_, _, hdefine, hunit⟩ := bind_eq_ok.mp hdefine
  obtain ⟨hnew, -, rfl⟩ := defineVariable_eq_ok.mp hdefine
  obtain ⟨-, rfl⟩ := pure_eq_ok.mp hunit
  obtain ⟨-, rfl⟩ := pure_eq_ok.mp hw
  refine ⟨v, s₁, hv, ?_⟩
  -- the active scope is the one in which the evaluation of the value began
  have htidy : Tidy Continues False [] (valueOf (visit depth) node) :=
    Tidies.valueOf (visit_tidy depth) nofun
  obtain ⟨vs, fs, hgrows, -⟩ := htidy s hs
  rw [after_of_ok hv] at hgrows
  have hsize := Nat.lt_of_lt_of_le hs hgrows.size_le
  rw [← hgrows.env_eq] at hsize ⊢
  exact State.variableAt?_withVariable hsize hnew

/-- The parts of a program are evaluated in its own environment. -/
theorem env_of_values_start {nodes : List Node} {vs : List Value}
    (h : values (visit depth) nodes (start {} none) = .ok vs s) :
    s.env = (start {} none).env ∧ 0 < s.store.scopes.size := by
  have hstart : 0 < (start {} none : State Body String).store.scopes.size := by decide
  obtain ⟨_, _, hgrows, -⟩ := (visit_tidy depth).values (p := False) nofun (start {} none) hstart
  rw [after_of_ok h] at hgrows
  exact ⟨hgrows.env_eq, Nat.lt_of_lt_of_le hstart hgrows.size_le⟩

/-- The globals of a program are evaluated in its first scope. -/
theorem scope_of_values_start {nodes : List Node} {vs : List Value}
    (h : values (visit depth) nodes (start {} none) = .ok vs s) :
    s.env.scope = 0 ∧ 0 < s.store.scopes.size :=
  (env_of_values_start h).imp_left (congrArg Env.scope)

/-- What follows the evaluation of several nodes may be begun when some of them are evaluated. -/
theorem values_append_bind {α : Type} {V : Node → Run Value} {before after : List Node}
    {vs : List Value} (h : values V before s = .ok vs t) (k : Run α) :
    (do let _ ← values V (before ++ after); k) s = (do let _ ← values V after; k) t := by
  induction before generalizing s vs with
  | nil =>
    obtain ⟨-, rfl⟩ := pure_eq_ok.mp h
    rfl
  | cons n ns ih =>
    obtain ⟨v, s₁, hv, h⟩ := bind_eq_ok.mp h
    obtain ⟨ws, s₂, hws, h⟩ := bind_eq_ok.mp h
    obtain ⟨-, rfl⟩ := pure_eq_ok.mp h
    simp only [List.cons_append, values, bind_assoc, pure_bind]
    rw [bind_of_eq_ok hv]
    exact ih hws

/-- The run of a program goes on behind the globals that were evaluated. -/
theorem runProgram_append {V : Node → Run Value} {before after fs : List Node} {vs : List Value}
    (h : values V before s = .ok vs t) :
    runProgram V (before ++ after) fs s = runProgram V after fs t := values_append_bind h _

end Run

namespace Node

open Run

/-- **Constants are never written.** Take a program and any tree that differs from it in the slots of
the analysis at most, whether it is accepted or not. If its globals have been evaluated up to a
constant, that holds what its initial value was evaluated to, the run goes on with the rest of the
program, and the constant holds that value whenever a node is evaluated from then on, when that has
ended, and when the run has ended in one way or the other. An assignment whose receiver is found to be
a constant fails in the state in which it began, and its parts are not evaluated. -/
theorem run_keeps_constants {text : String} {t : Node} (h : parse? text = some t) {gs fs : List Node}
    (hd : (source gs fs).skeleton = t.skeleton) (depth : Nat) :
    (∀ before name typeName value b p after vs s w s',
      gs = before ++ global name typeName (some false) value b p :: after →
      values (visit (depth + 1)) before (start {} none) = .ok vs s →
      visit (depth + 1) (global name typeName (some false) value b p) s = .ok w s' →
      ∃ v s₁, visit depth value s = .ok v s₁ ∧ s'.store.HoldsConstant ⟨0, name⟩ v ∧
        (source gs fs).run (depth + 2) =
          attached (source gs fs) (runProgram (visit (depth + 1)) after fs) s' ∧
        Passes (fun depth n u => u.store.HoldsConstant ⟨0, name⟩ v ∧
          ((visit depth n).after u).store.HoldsConstant ⟨0, name⟩ v)
          (depth + 2) (source after fs) s' ∧
        ((visit (depth + 2) (source gs fs)).after (start {} none)).store.HoldsConstant
          ⟨0, name⟩ v) ∧
      ∀ name offset type b p value q s ref v,
        s.store.findVariable? s.env name = some (ref, v) → v.isMutable = false →
        ∀ V rounds, attached (assignment (access name offset type b p) value q)
            (step V rounds (assignment (access name offset type b p) value q)) s =
          .error (.fault (Located.attach { fault := .immutable name }
            (assignment (access name offset type b p) value q))) s := by
  refine ⟨?_, fun _ _ _ _ _ _ _ _ _ _ hfind hv V rounds => assignment_immutable hfind hv V rounds⟩
  intro before name typeName value b p after vs s w s' hgs hvs hw
  have hpresent : value.isPresent = true := by
    cases (isProgram_of_parse? h).of_skeleton_eq hd with
    | source hglobals _ =>
      have hglobal := hglobals (global name typeName (some false) value b p) (by simp [hgs])
      cases hglobal with
      | immutable _ _ hvalue => exact hvalue.isPresent
  obtain ⟨hscope, hsize⟩ := scope_of_values_start hvs
  obtain ⟨v, s₁, hv, hat⟩ := variableAt?_of_visit_global (hscope ▸ hsize) hw
  rw [valueOf, if_pos hpresent] at hv
  rw [hscope] at hat
  have hconstant : s'.store.HoldsConstant ⟨0, name⟩ v := ⟨_, hat, rfl, rfl⟩
  have hprogram : (runProgram (visit (depth + 1)) gs fs) (start {} none) =
      runProgram (visit (depth + 1)) after fs s' := by
    rw [hgs, runProgram_append hvs]
    have hfirst : values (visit (depth + 1)) [global name typeName (some false) value b p] s =
        .ok [w] s' := bind_eq_ok.mpr ⟨w, s', hw, rfl⟩
    exact runProgram_append hfirst
  have hrun : (source gs fs).run (depth + 2) =
      attached (source gs fs) (runProgram (visit (depth + 1)) after fs) s' := by
    show attached (source gs fs) (runProgram (visit (depth + 1)) gs fs) (start {} none) = _
    rw [attached, attached, hprogram]
  refine ⟨v, s₁, hv, hconstant, hrun, passes_holdsConstant hconstant _ _, ?_⟩
  have hafter : (visit (depth + 2) (source gs fs)).after (start {} none) =
      (visit (depth + 2) (source after fs)).after s' := by
    show (attached (source gs fs) (runProgram (visit (depth + 1)) gs fs)).after (start {} none) =
      (attached (source after fs) (runProgram (visit (depth + 1)) after fs)).after s'
    rw [after_attached, after_attached, Walk.after, Walk.after, hprogram]
  rw [hafter]
  exact (visit_becomes _ _ s').holdsConstant hconstant

/-- A constant that holds a list, a parameter of the same name, and an assignment to the constant. -/
def aliasing : String :=
  "LIST xs: Integer = [1]; VAL ys: Any = xs; FUN f(ys: Integer) DO ys = 2; END " ++
  "FUN main(): Integer DO f(3); xs[0] = 5; ys[0] = 7; RETURN 0; END"

/-- The second global of the example is the constant, and it is evaluated to the list. -/
def bindsList : Node → Bool
  | .source [g, .global (some "ys") typeName (some false) value b p] _ =>
    match values (visit 7) [g] (start {} none) with
    | .ok _ s =>
      (visit 7 (.global (some "ys") typeName (some false) value b p) s matches (.ok _ _)) &&
        (visit 6 value s matches (.ok (.list 0) _))
    | _ => false
  | _ => false

/-- The run of the example fails because of the constant. -/
def failsAtConstant (t : Node) : Bool :=
  match t.run 8 with
  | .error (.fault e) _ => e.fault = .immutable "ys"
  | _ => false

theorem run_keeps_constants_aliasing :
    ∃ t, parse? aliasing = some t ∧ failsAtConstant t = true ∧
      ((visit 8 t).after (start {} none)).store.HoldsConstant ⟨0, "ys"⟩ (.list 0) := by
  have hparsed : (parse? aliasing).any (fun t => bindsList t && failsAtConstant t) = true := by
    decide +kernel
  obtain ⟨t, ht, hchecks⟩ := (Option.any_eq_true _ _).mp hparsed
  obtain ⟨hbinds, hfails⟩ := Bool.and_eq_true_iff.mp hchecks
  refine ⟨t, ht, hfails, ?_⟩
  unfold bindsList at hbinds
  split at hbinds
  next g typeName value b p fs =>
    split at hbinds
    next vs s hvs =>
      simp only [Bool.and_eq_true] at hbinds
      obtain ⟨hw, hlist⟩ := hbinds
      split at hw
      next w s' hw' =>
        split at hlist
        next s₁ hlist' =>
          obtain ⟨v, s₂, hv, -, -, -, hafter⟩ :=
            (run_keeps_constants ht rfl 6).1 [g] _ _ _ _ _ [] _ _ _ _ rfl hvs hw'
          cases hlist'.symm.trans hv
          exact hafter
        next => cases hlist
      next => cases hw
    next => cases hbinds
  next => cases hbinds

end Node

end PlcLang
