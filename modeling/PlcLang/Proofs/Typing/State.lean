import PlcLang.Proofs.Keyed
import PlcLang.Proofs.Store
import PlcLang.Proofs.Typing.Rules
import PlcLang.Typing.Analysis

/-!
# The state of the analysis

The analysis keeps its scopes in a store; the rules speak of a context. A state represents a context
if the scopes that are visible in it are those of the context.

* `Represents`: the relation, kept by opening and leaving scopes and by new bindings.
* `Represents.findVariable?_iff`, `Represents.findFunction?_iff`: a lookup finds what a name means.
-/

namespace PlcLang.Typing

open Walk

/-! ## One scope -/

/-- No two variables have the same name, and no two functions the same name and number of
parameters. -/
structure Frame.Distinct (φ : Frame) : Prop where
  names : (φ.scope.variables.map (·.name)).Nodup
  keys : (φ.scope.functions.map fun f => (f.name, f.arity)).Nodup

namespace Frame

variable {φ : Frame} {name : Name} {arity : Nat}

theorem lacksVariable_iff : φ.LacksVariable name ↔ φ.scope.variableNamed? name = none := by
  simp [LacksVariable, Scope.variableNamed?]

theorem lacksFunction_iff : φ.LacksFunction name arity ↔ φ.scope.functionNamed? name arity = none := by
  simp [LacksFunction, Scope.functionNamed?]

theorem variableNamed?_eq_some (h : φ.Distinct) {v : Variable} :
    φ.scope.variableNamed? name = some v ↔ v ∈ φ.scope.variables ∧ v.name = name :=
  Keyed.find?_eq_some_iff (by simp) h.names

theorem functionNamed?_eq_some (h : φ.Distinct) {f : Function Unit} :
    φ.scope.functionNamed? name arity = some f ↔
      f ∈ φ.scope.functions ∧ f.name = name ∧ f.arity = arity := by
  have hfound : φ.scope.functionNamed? name arity = some f ↔
      f ∈ φ.scope.functions ∧ (f.name, f.arity) = (name, arity) :=
    Keyed.find?_eq_some_iff (by simp) h.keys
  rw [hfound, Prod.mk.injEq]

theorem Distinct.withVariable (h : φ.Distinct) {v : Variable} (hv : φ.LacksVariable v.name) :
    (φ.withVariable v).Distinct := by
  refine ⟨?_, h.keys⟩
  simp only [Frame.withVariable, List.map_append, List.map_cons, List.map_nil]
  refine List.nodup_append.mpr ⟨h.names, List.nodup_singleton _, ?_⟩
  rintro a ha b hb rfl
  obtain ⟨u, hu, rfl⟩ := List.mem_map.mp ha
  exact hv u hu (by simpa using hb)

theorem Distinct.withFunction (h : φ.Distinct) {f : Function Unit}
    (hf : φ.LacksFunction f.name f.arity) : (φ.withFunction f).Distinct := by
  refine ⟨h.names, ?_⟩
  simp only [Frame.withFunction, List.map_append, List.map_cons, List.map_nil]
  refine List.nodup_append.mpr ⟨h.keys, List.nodup_singleton _, ?_⟩
  rintro a ha b hb rfl
  obtain ⟨g, hg, rfl⟩ := List.mem_map.mp ha
  exact hf g hg (by simpa using hb)

theorem distinct_empty (id : ScopeId) : Frame.Distinct ⟨id, {}⟩ := ⟨List.nodup_nil, List.nodup_nil⟩

end Frame

/-! ## What a name means -/

section

variable {Γ : Context} {φ : Frame} {name : Name} {arity : Nat}

/-- The innermost scope answers, or else those around it. -/
theorem seesVariable_cons (hφ : φ.Distinct) {ref : VariableRef} {v : Variable} :
    SeesVariable name (φ :: Γ) ref v ↔
      (φ.scope.variableNamed? name).map ((⟨φ.id, name⟩ : VariableRef), ·) = some (ref, v) ∨
        φ.scope.variableNamed? name = none ∧ SeesVariable name Γ ref v := by
  constructor
  · intro hs
    cases hs with
    | here hv hname =>
      left
      rw [(Frame.variableNamed?_eq_some hφ).mpr ⟨hv, hname⟩, Option.map_some]
    | outside hlacks hs => exact .inr ⟨Frame.lacksVariable_iff.mp hlacks, hs⟩
  · rintro (hfound | ⟨hnone, hs⟩)
    · obtain ⟨u, hu, heq⟩ := Option.map_eq_some_iff.mp hfound
      cases heq
      obtain ⟨hv, hname⟩ := (Frame.variableNamed?_eq_some hφ).mp hu
      exact .here hv hname
    · exact .outside (Frame.lacksVariable_iff.mpr hnone) hs

theorem seesFunction_cons (hφ : φ.Distinct) {ref : FunctionRef} {f : Function Unit} :
    SeesFunction name arity (φ :: Γ) ref f ↔
      (φ.scope.functionNamed? name arity).map ((⟨φ.id, name, arity⟩ : FunctionRef), ·) = some (ref, f) ∨
        φ.scope.functionNamed? name arity = none ∧ SeesFunction name arity Γ ref f := by
  constructor
  · intro hs
    cases hs with
    | here hf hname harity =>
      left
      rw [(Frame.functionNamed?_eq_some hφ).mpr ⟨hf, hname, harity⟩, Option.map_some]
    | outside hlacks hs => exact .inr ⟨Frame.lacksFunction_iff.mp hlacks, hs⟩
  · rintro (hfound | ⟨hnone, hs⟩)
    · obtain ⟨g, hg, heq⟩ := Option.map_eq_some_iff.mp hfound
      cases heq
      obtain ⟨hf, hname, harity⟩ := (Frame.functionNamed?_eq_some hφ).mp hg
      exact .here hf hname harity
    · exact .outside (Frame.lacksFunction_iff.mpr hnone) hs

end

/-! ## All visible scopes -/

/-- The scopes that are visible in the state are those of the context. -/
structure Represents (Γ : Context) (σ : State Unit (Option Ty)) : Prop where
  /-- They are visible in the same order. -/
  visible : σ.env.visible = Γ.map Frame.id
  /-- They bind the same. -/
  scope : ∀ φ ∈ Γ, σ.store.scope φ.id = φ.scope
  /-- They are there. -/
  bounded : ∀ φ ∈ Γ, φ.id < σ.store.scopes.size
  /-- They are different scopes. -/
  nodup : (Γ.map Frame.id).Nodup
  /-- No scope binds a name twice. -/
  distinct : ∀ φ ∈ Γ, φ.Distinct

namespace Represents

variable {Γ Δ : Context} {φ ψ : Frame} {σ τ : State Unit (Option Ty)}

theorem active (h : Represents (φ :: Γ) σ) : σ.env.scope = φ.id :=
  (List.cons.inj h.visible).1

theorem active_scope (h : Represents (φ :: Γ) σ) : σ.store.scope σ.env.scope = φ.scope := by
  rw [h.active, h.scope φ List.mem_cons_self]

theorem lacksVariable_iff (h : Represents (φ :: Γ) σ) {name : Name} :
    (σ.store.scope σ.env.scope).variableNamed? name = none ↔ φ.LacksVariable name := by
  rw [h.active_scope, Frame.lacksVariable_iff]

theorem lacksFunction_iff (h : Represents (φ :: Γ) σ) {name : Name} {arity : Nat} :
    (σ.store.scope σ.env.scope).functionNamed? name arity = none ↔ φ.LacksFunction name arity := by
  rw [h.active_scope, Frame.lacksFunction_iff]

/-! ### Lookups -/

theorem findVariable?_iff (h : Represents Γ σ) {name : Name} {ref : VariableRef} {v : Variable} :
    σ.store.findVariable? σ.env name = some (ref, v) ↔ SeesVariable name Γ ref v := by
  rw [Store.findVariable?, h.visible, List.findSome?_map]
  refine Keyed.findSome?_eq_some_iff (P := (SeesVariable name · ref v)) nofun fun φ hφ Δ => ?_
  rw [seesVariable_cons (h.distinct φ hφ), Function.comp_apply, h.scope φ hφ, Option.map_eq_none_iff]

theorem findFunction?_iff (h : Represents Γ σ) {name : Name} {arity : Nat} {ref : FunctionRef}
    {f : Function Unit} :
    σ.store.findFunction? σ.env name arity = some (ref, f) ↔ SeesFunction name arity Γ ref f := by
  rw [Store.findFunction?, h.visible, List.findSome?_map]
  refine Keyed.findSome?_eq_some_iff (P := (SeesFunction name arity · ref f)) nofun fun φ hφ Δ => ?_
  rw [seesFunction_cons (h.distinct φ hφ), Function.comp_apply, h.scope φ hφ, Option.map_eq_none_iff]

/-! ### New scopes and new bindings -/

theorem opened (h : Represents Γ σ) : Represents (⟨σ.store.scopes.size, {}⟩ :: Γ) σ.opened := by
  refine ⟨?_, ?_, ?_, ?_, ?_⟩
  · rw [List.map_cons, ← h.visible]
    rfl
  · intro φ hφ
    rcases List.mem_cons.mp hφ with rfl | hφ
    · exact Store.scope_child_size σ.env
    · exact (Store.scope_child σ.env (h.bounded φ hφ)).trans (h.scope φ hφ)
  · intro φ hφ
    rw [σ.size_opened]
    rcases List.mem_cons.mp hφ with rfl | hφ
    · exact Nat.lt_succ_self _
    · exact Nat.lt_succ_of_lt (h.bounded φ hφ)
  · rw [List.map_cons, List.nodup_cons]
    refine ⟨fun hmem => ?_, h.nodup⟩
    obtain ⟨φ, hφ, he⟩ := List.mem_map.mp hmem
    exact absurd (h.bounded φ hφ) (Nat.not_lt.mpr (Nat.le_of_eq he.symm))
  · intro φ hφ
    rcases List.mem_cons.mp hφ with rfl | hφ
    · exact Frame.distinct_empty _
    · exact h.distinct φ hφ

/-- Whoever leaves a scope sees the scopes around it. -/
theorem leaving (h : Represents (φ :: Γ) σ) {env : Env} (henv : env.visible = Γ.map Frame.id) :
    Represents Γ (σ.leaving env) :=
  ⟨henv, fun ψ hψ => h.scope ψ (List.mem_cons_of_mem _ hψ),
    fun ψ hψ => h.bounded ψ (List.mem_cons_of_mem _ hψ), (List.nodup_cons.mp h.nodup).2,
    fun ψ hψ => h.distinct ψ (List.mem_cons_of_mem _ hψ)⟩

/-- A change of the active scope. -/
theorem modify (h : Represents (φ :: Γ) σ) {f : Scope Unit → Scope Unit} (hid : ψ.id = φ.id)
    (hscope : ψ.scope = f φ.scope) (hψ : ψ.Distinct) :
    Represents (ψ :: Γ) { σ with store := σ.store.modifyScope σ.env.scope f } := by
  have hb := h.bounded φ List.mem_cons_self
  refine ⟨?_, ?_, ?_, ?_, ?_⟩
  · rw [List.map_cons, hid, ← List.map_cons, ← h.visible]
  · intro χ hχ
    rw [h.active]
    rcases List.mem_cons.mp hχ with rfl | hχ
    · rw [hid, Store.scope_modifyScope hb, h.scope φ List.mem_cons_self, hscope]
    · have hne : χ.id ≠ φ.id := fun he =>
        (List.nodup_cons.mp h.nodup).1 (he ▸ List.mem_map.mpr ⟨χ, hχ, rfl⟩)
      rw [Store.scope_modifyScope_of_ne hne, h.scope χ (List.mem_cons_of_mem _ hχ)]
  · intro χ hχ
    rw [Store.size_modifyScope]
    rcases List.mem_cons.mp hχ with rfl | hχ
    · rwa [hid]
    · exact h.bounded χ (List.mem_cons_of_mem _ hχ)
  · rw [List.map_cons, hid, ← List.map_cons]
    exact h.nodup
  · intro χ hχ
    rcases List.mem_cons.mp hχ with rfl | hχ
    · exact hψ
    · exact h.distinct χ (List.mem_cons_of_mem _ hχ)

theorem withVariable (h : Represents (φ :: Γ) σ) {v : Variable} (hv : φ.LacksVariable v.name) :
    Represents (φ.withVariable v :: Γ) (σ.withVariable v) :=
  h.modify rfl rfl ((h.distinct φ List.mem_cons_self).withVariable hv)

theorem withFunction (h : Represents (φ :: Γ) σ) {f : Function Unit}
    (hf : φ.LacksFunction f.name f.arity) :
    Represents (φ.withFunction f :: Γ) (σ.withFunction f) :=
  h.modify rfl rfl ((h.distinct φ List.mem_cons_self).withFunction hf)

theorem variableAt?_iff (h : Represents Γ σ) (hφ : φ ∈ Γ) {v : Variable} :
    σ.store.variableAt? ⟨φ.id, v.name⟩ = some v ↔ v ∈ φ.scope.variables := by
  rw [Store.variableAt?, h.scope φ hφ, Frame.variableNamed?_eq_some (h.distinct φ hφ)]
  exact and_iff_left rfl

theorem functionAt?_iff (h : Represents Γ σ) (hφ : φ ∈ Γ) {f : Function Unit} :
    σ.store.functionAt? ⟨φ.id, f.name, f.arity⟩ = some f ↔ f ∈ φ.scope.functions := by
  rw [Store.functionAt?, h.scope φ hφ, Frame.functionNamed?_eq_some (h.distinct φ hφ)]
  exact and_iff_left ⟨rfl, rfl⟩

/-- The register does not matter. -/
theorem register (h : Represents Γ σ) (r : Option Ty) : Represents Γ { σ with register := r } :=
  ⟨h.visible, h.scope, h.bounded, h.nodup, h.distinct⟩

end Represents

end PlcLang.Typing
