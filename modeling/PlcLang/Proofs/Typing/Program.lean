import PlcLang.Proofs.Typing.Block

/-!
# The analysis of programs

The analysis accepts just the programs that are well typed, and it returns them with the types and
bindings that the rules give them.

* `defineParameters_eq_ok`: parameters become variables if their names differ.
* `checksFunctions_of_visitAll`, `ChecksFunctions.completes`: functions; globals alike.
* `wellTyped_of_visit`, `visit_of_wellTyped`: the analysis of a program and its typing.
-/

namespace PlcLang.Typing

open Walk Analysis

variable {N : String → Prop} {S : Store Unit} {Γ : Context} {φ ψ : Frame}
  {σ σ' : State Unit (Option Ty)}

/-! ## Parameters -/

/-- The state with more variables in the active scope. -/
def withVariables (σ : State Unit (Option Ty)) (vs : List Variable) : State Unit (Option Ty) :=
  vs.foldl State.withVariable σ

/-- The scope with more variables. -/
def Frame.withVariables (φ : Frame) (vs : List Variable) : Frame :=
  vs.foldl Frame.withVariable φ

theorem Frame.withVariables_eq {vs : List Variable} :
    φ.withVariables vs =
      { φ with scope := { φ.scope with «variables» := φ.scope.variables ++ vs } } := by
  induction vs generalizing φ with
  | nil => simp [Frame.withVariables]
  | cons v vs ih =>
    rw [Frame.withVariables, List.foldl_cons]
    refine ih.trans ?_
    simp [Frame.withVariable]

theorem keeps_withVariables (σ : State Unit (Option Ty)) (vs : List Variable) :
    Keeps σ (withVariables σ vs) ∧ (withVariables σ vs).store.scopes.size = σ.store.scopes.size := by
  induction vs generalizing σ with
  | nil => exact ⟨.refl σ, rfl⟩
  | cons v vs ih =>
    obtain ⟨hkeeps, hsize⟩ := ih (σ.withVariable v)
    exact ⟨(Keeps.withVariable σ v).trans hkeeps, hsize.trans Store.size_modifyScope⟩

theorem keepsIn_withVariables {vs : List Variable}
    (hvs : ∀ v ∈ vs, S.variableAt? ⟨σ.env.scope, v.name⟩ = some v) :
    KeepsIn S σ (withVariables σ vs) := by
  induction vs generalizing σ with
  | nil => exact .refl σ
  | cons v vs ih =>
    obtain ⟨hv, hvs⟩ := List.forall_mem_cons.mp hvs
    exact (KeepsIn.withVariable hv).trans (ih (σ := σ.withVariable v) hvs)

theorem lacksVariable_withVariable {v : Variable} {name : Name} :
    (φ.withVariable v).LacksVariable name ↔ φ.LacksVariable name ∧ v.name ≠ name := by
  simp [Frame.LacksVariable, Frame.withVariable, or_imp, forall_and]

/-- Parameters can be added just if their names are new and differ from each other. -/
theorem defineParameters_eq_ok (h : Represents (φ :: Γ) σ) {p : Place} {names : List Name}
    {types : List Ty} (hlength : names.length = types.length) {u : Unit} :
    defineParameters p names types σ = .ok u σ' ↔
      names.Nodup ∧ (∀ name ∈ names, φ.LacksVariable name) ∧
        σ' = withVariables σ (parameterVariables p names types) := by
  induction names generalizing φ σ types with
  | nil =>
    rw [defineParameters.eq_def, pure_eq_ok]
    simp [parameterVariables, withVariables, eq_comm]
  | cons name names ih =>
    obtain ⟨type, types, rfl⟩ := List.exists_cons_of_length_eq_add_one hlength.symm
    have hlength := Nat.succ.inj hlength
    have hlacks : (σ.store.scope σ.env.scope).variableNamed? name = none ↔ φ.LacksVariable name :=
      h.lacksVariable_iff
    simp only [defineParameters, bind_eq_ok, defineVariable_eq_ok, hlacks, List.nodup_cons,
      List.forall_mem_cons]
    constructor
    · rintro ⟨_, _, ⟨hnew, rfl, rfl⟩, hrest⟩
      have hrepresents := h.withVariable (v := { name, type, origin := p }) hnew
      obtain ⟨hnodup, hall, rfl⟩ := (ih hrepresents hlength).mp hrest
      simp only [lacksVariable_withVariable] at hall
      exact ⟨⟨fun hmem => (hall name hmem).2 rfl, hnodup⟩,
        ⟨hnew, fun other hother => (hall other hother).1⟩, rfl⟩
    · rintro ⟨⟨hmem, hnodup⟩, ⟨hnew, hall⟩, rfl⟩
      have hrepresents := h.withVariable (v := { name, type, origin := p }) hnew
      refine ⟨_, _, ⟨hnew, rfl, rfl⟩, (ih hrepresents hlength).mpr ⟨hnodup, fun other hother => ?_, rfl⟩⟩
      exact lacksVariable_withVariable.mpr ⟨hall other hother, fun he => hmem (Eq.subst he.symm hother)⟩

theorem Represents.withVariables (h : Represents (φ :: Γ) σ) {p : Place} {names : List Name}
    {types : List Ty} (hlength : names.length = types.length) (hnodup : names.Nodup)
    (hlacks : ∀ name ∈ names, φ.LacksVariable name) :
    Represents (φ.withVariables (parameterVariables p names types) :: Γ)
      (withVariables σ (parameterVariables p names types)) := by
  induction names generalizing φ σ types with
  | nil => exact h
  | cons name names ih =>
    obtain ⟨type, types, rfl⟩ := List.exists_cons_of_length_eq_add_one hlength.symm
    obtain ⟨hmem, hnodup⟩ := List.nodup_cons.mp hnodup
    obtain ⟨hnew, hlacks⟩ := List.forall_mem_cons.mp hlacks
    refine ih (h.withVariable hnew) (Nat.succ.inj hlength) hnodup fun other hother => ?_
    exact lacksVariable_withVariable.mpr ⟨hlacks other hother, fun he => hmem (Eq.subst he.symm hother)⟩

theorem mapM_resolve_eq_ok {names : List Name} {types : List Ty} :
    (names.mapM resolve) σ = .ok types σ' ↔ names = types.map (some ·.name) ∧ σ = σ' := by
  induction names generalizing σ σ' types with
  | nil =>
    rw [List.mapM_nil, pure_eq_ok]
    refine and_congr_left fun _ => ⟨fun h => by rw [← h]; rfl, fun h => ?_⟩
    exact (List.map_eq_nil_iff.mp h.symm).symm
  | cons name names ih =>
    simp only [List.mapM_cons, bind_eq_ok, resolve_eq_ok, pure_eq_ok, ih]
    constructor
    · rintro ⟨type, _, ⟨rfl, rfl⟩, types, _, ⟨rfl, rfl⟩, rfl, rfl⟩
      exact ⟨rfl, rfl⟩
    · rintro ⟨h, rfl⟩
      obtain ⟨type, types, rfl, hname, hnames⟩ := List.map_eq_cons_iff.mp h.symm
      exact ⟨type, σ, ⟨hname.symm, rfl⟩, types, σ, ⟨hnames.symm, rfl⟩, rfl, rfl⟩

theorem returnedType_eq_ok {name : Name} {τ : Ty} :
    returnedType name σ = .ok τ σ' ↔ ReturnType name τ ∧ σ = σ' := by
  cases name with
  | none =>
    rw [returnedType, pure_eq_ok]
    refine and_congr_left fun _ => ⟨?_, ?_⟩
    · rintro rfl
      exact .none
    · rintro ⟨⟩
      rfl
  | some name =>
    rw [returnedType, resolve_eq_ok]
    refine and_congr_left fun _ => ⟨?_, ?_⟩
    · rintro ⟨⟩
      exact .named τ
    · rintro ⟨⟩
      rfl

theorem inFunction_eq_ok {α : Type} {R : Ty} {x : Analysis α} {a : α} :
    inFunction R x σ = .ok a σ' ↔
      ∃ τ, x { σ with register := some R } = .ok a τ ∧ σ' = { τ with register := σ.register } := by
  unfold inFunction
  cases h : x { σ with register := some R } <;> simp [h, eq_comm]

/-! ## Soundness -/

theorem soundValue_list (h : Represents Γ σ) {e : Node} {es : List Node} {t : Option Ty} {p : Place}
    (hes : ∀ a ∈ e :: es, a.IsExpression N) : SoundValue Γ σ (.listLiteral (e :: es) t p) :=
  .inr ⟨rfl, sound_list fun a ha => sound_expression h (hes a ha)⟩

theorem checksGlobals_of_visitAll {gs gs' : List Node} (hgs : ∀ g ∈ gs, g.IsGlobal N)
    (h : Represents [φ] σ) (hv : visitAll visit gs σ = .ok gs' σ') :
    Keeps σ σ' ∧ σ'.store.scopes.size = σ.store.scopes.size ∧ ∃ ψ, Represents [ψ] σ' ∧
      ∀ {S}, σ'.store.Extends S → ChecksGlobals S φ gs gs' ψ := by
  induction gs generalizing φ σ gs' with
  | nil =>
    obtain ⟨rfl, rfl⟩ := pure_eq_ok.mp hv
    exact ⟨.refl σ, rfl, φ, h, fun _ => .nil⟩
  | cons g gs ih =>
    obtain ⟨hg, hrest⟩ := List.forall_mem_cons.mp hgs
    obtain ⟨name, typeName, mutable, value, b, p, rfl, hvalue⟩ :
        ∃ name typeName mutable value b p, g = .global name typeName mutable value b p ∧
          SoundValue [φ] σ value := by
      cases hg with
      | list _ _ hes => exact ⟨_, _, _, _, _, _, rfl, soundValue_list h hes⟩
      | mutable _ _ he => exact ⟨_, _, _, _, _, _, rfl, soundValue_of_isOptional h he⟩
      | immutable _ _ he => exact ⟨_, _, _, _, _, _, rfl, soundValue_of_isOptional h (.inr he)⟩
    simp only [visitAll, bind_eq_ok, pure_eq_ok] at hv
    obtain ⟨g', _, hg', gs', _, hgs', rfl, rfl⟩ := hv
    rw [visit_eq, attached_eq_ok, step] at hg'
    simp only [bind_eq_ok, pure_eq_ok, defineVariable_eq_ok] at hg'
    obtain ⟨value', σ₁, h₁, τ, σ₂, h₂, _, σ₃, ⟨hnew, rfl, rfl⟩, _, _, h₃, rfl, rfl⟩ := hg'
    obtain ⟨hi, rfl, rfl, rfl⟩ := initial_of_eq_ok hvalue h₁ h₂ h₃
    have hlacks := h.lacksVariable_iff.mp hnew
    have hrepresents := h.withVariable (v := { name, type := τ, mutable, origin := p }) hlacks
    obtain ⟨hkeeps, hsize, ψ, hψ, hchecks⟩ := ih hrest hrepresents hgs'
    refine ⟨(Keeps.withVariable σ _).trans hkeeps, hsize.trans Store.size_modifyScope, ψ, hψ,
      fun hS => ?_⟩
    have hat := (hrepresents.variableAt?_iff List.mem_cons_self).mpr
      (List.mem_append_right _ List.mem_cons_self)
    rw [h.active]
    exact .global hi hlacks ((hkeeps.bindings.trans hS).variableAt? hat) (hchecks hS)

/-- The body of a function, in a scope with the parameters. -/
theorem checks_of_body {R : Ty} {p : Place} {names : List Name} {types : List Ty}
    {ss ss' : List Node} (hss : ∀ s ∈ ss, s.IsStatement N) (hlength : names.length = types.length)
    (h : Represents Γ σ) (hR : σ.register = some R)
    (hv : inChild (do defineParameters p names types; visitAll visit ss) σ = .ok ss' σ') :
    Keeps σ σ' ∧ Represents Γ σ' ∧ names.Nodup ∧ ∀ {S}, σ'.store.Extends S →
      (∀ v ∈ parameterVariables p names types,
        S.variableAt? ⟨σ.store.scopes.size, v.name⟩ = some v) ∧
      Checks S R
        (⟨σ.store.scopes.size, { «variables» := parameterVariables p names types }⟩ :: Γ)
        (σ.store.scopes.size + 1) ss ss' σ'.store.scopes.size := by
  simp only [inChild_eq_ok, bind_eq_ok, defineParameters_eq_ok h.opened hlength] at hv
  obtain ⟨τ, ⟨_, _, ⟨hnodup, hlacks, rfl⟩, hbody⟩, rfl⟩ := hv
  have hrepresents := h.opened.withVariables (p := p) hlength hnodup hlacks
  obtain ⟨hkeeps, hsize⟩ := keeps_withVariables σ.opened (parameterVariables p names types)
  obtain ⟨hkeeps', ⟨ψ, hψ⟩, hchecks⟩ :=
    checks_of_visitAll (fun s hs => sound_statement (hss s hs)) hrepresents
      (hkeeps.register.trans hR) hbody
  refine ⟨(hkeeps.trans hkeeps').leaving, hψ.leaving h.visible, hnodup, fun {S} hS => ?_⟩
  rw [Frame.withVariables_eq, List.nil_append] at hrepresents hchecks
  constructor
  · intro v hv
    exact hS.variableAt? (hkeeps'.bindings.variableAt?
      ((hrepresents.variableAt?_iff List.mem_cons_self).mpr hv))
  · rw [← σ.size_opened, ← hsize]
    exact hchecks hS

theorem checksFunctions_of_visitAll {fs fs' : List Node} (hfs : ∀ f ∈ fs, f.IsFunction N)
    (h : Represents [φ] σ) (hv : visitAll visit fs σ = .ok fs' σ') :
    Keeps σ σ' ∧ ∃ ψ, Represents [ψ] σ' ∧
      ∀ {S}, σ'.store.Extends S → ChecksFunctions S φ σ.store.scopes.size fs fs' ψ := by
  induction fs generalizing φ σ fs' with
  | nil =>
    obtain ⟨rfl, rfl⟩ := pure_eq_ok.mp hv
    exact ⟨.refl σ, φ, h, fun _ => .nil⟩
  | cons f fs ih =>
    obtain ⟨hf, hrest⟩ := List.forall_mem_cons.mp hfs
    simp only [visitAll, bind_eq_ok, pure_eq_ok] at hv
    obtain ⟨f', _, hf', fs', _, hfs', rfl, rfl⟩ := hv
    cases hf with
    | @function name returnType ss b p parameters _ _ _ hss =>
    rw [visit_eq, attached_eq_ok, step] at hf'
    simp only [bind_eq_ok, pure_eq_ok, require_eq_ok, decide_eq_true_eq, mapM_resolve_eq_ok,
      returnedType_eq_ok, defineFunction_eq_ok, visitBody, inFunction_eq_ok] at hf'
    obtain ⟨_, _, ⟨hlength, rfl⟩, types, _, ⟨htypes, rfl⟩, R, _, ⟨hR, rfl⟩, _, _, ⟨hnew, rfl, rfl⟩, ss', _,
      ⟨τ, hbody, rfl⟩, rfl, rfl⟩ := hf'
    have hlength := (htypes ▸ hlength).trans (List.length_map _)
    have hlacks := h.lacksFunction_iff.mp hnew
    have hrepresents := h.withFunction
      (f := { name := some name, parameterTypes := types, returnType := R, origin := p }) hlacks
    obtain ⟨hkeeps, hrepresents', hnodup, hchecks⟩ :=
      checks_of_body hss hlength (hrepresents.register (some R)) rfl hbody
    obtain ⟨hkeeps', ψ, hψ, hchecks'⟩ := ih hrest (hrepresents'.register σ.register) hfs'
    have hkept : Keeps σ { τ with register := σ.register } :=
      ⟨hkeeps.env, rfl, (σ.extends_withFunction _).trans hkeeps.bindings⟩
    refine ⟨hkept.trans hkeeps', ψ, hψ, fun hS => ?_⟩
    have hS' := hkeeps'.bindings.trans hS
    have hat := (hrepresents.functionAt?_iff List.mem_cons_self).mpr
      (List.mem_append_right _ List.mem_cons_self)
    have hat := hS'.functionAt? (hkeeps.bindings.functionAt? hat)
    obtain ⟨hparameters, hblock⟩ := hchecks hS'
    have hsize (f : Function Unit) : (σ.withFunction f).store.scopes.size =
        σ.store.scopes.size := Store.size_modifyScope
    rw [h.active, htypes]
    simp only [hsize] at hparameters hblock
    exact .function hlength hR hlacks hnodup hat hparameters hblock (hchecks' hS)

/-! ## Completeness -/

theorem ChecksGlobals.completes {gs gs' : List Node} (hc : ChecksGlobals S φ gs gs' ψ) :
    ∀ {σ}, Represents [φ] σ → Completes S [ψ] σ (visitAll visit gs) gs' σ.store.scopes.size := by
  induction hc with
  | nil =>
    intro σ h
    exact ⟨σ, rfl, .refl σ, h, rfl⟩
  | @global φ name typeName mutable value value' b p τ gs gs' ψ hi hlacks hat _ ih =>
    intro σ h
    obtain ⟨σ', hv, hkeeps, hψ, hsize⟩ :=
      ih (h.withVariable (v := { name, type := τ, mutable, origin := p }) hlacks)
    have hkept : KeepsIn S σ (σ.withVariable { name, type := τ, mutable, origin := p }) :=
      .withVariable (h.active ▸ hat)
    refine ⟨σ', ?_, hkept.trans hkeeps, hψ, hsize.trans Store.size_modifyScope⟩
    obtain ⟨h₁, h₂, h₃⟩ := hi.eq_ok h (.untypedGlobal name)
      (σ.withVariable { name, type := τ, mutable, origin := p })
    simp only [visitAll, bind_eq_ok, pure_eq_ok]
    refine ⟨_, _, ?_, gs', σ', hv, rfl, rfl⟩
    rw [visit_eq, attached_eq_ok, step, ← h.active]
    simp only [bind_eq_ok, pure_eq_ok, defineVariable_eq_ok]
    exact ⟨value', σ, h₁, τ, σ, h₂, _, _, ⟨h.lacksVariable_iff.mpr hlacks, rfl, rfl⟩, (), _, h₃, rfl,
      rfl⟩

/-- A function's body that is well typed in a scope with the parameters is accepted. -/
theorem completes_body {R : Ty} {p : Place} {names : List Name} {types : List Ty}
    {ss ss' : List Node} {m : ScopeId} (hlength : names.length = types.length)
    (hnodup : names.Nodup) (h : Represents Γ σ) (hR : σ.register = some R)
    (hlisted : ∀ v ∈ parameterVariables p names types,
      S.variableAt? ⟨σ.store.scopes.size, v.name⟩ = some v)
    (hc : Checks S R
      (⟨σ.store.scopes.size, { «variables» := parameterVariables p names types }⟩ :: Γ)
      (σ.store.scopes.size + 1) ss ss' m) :
    Completes S Γ σ (inChild (do defineParameters p names types; visitAll visit ss)) ss' m := by
  have hlacks : ∀ name ∈ names, Frame.LacksVariable ⟨σ.store.scopes.size, {}⟩ name :=
    fun _ _ => by simp [Frame.LacksVariable]
  have hrepresents := h.opened.withVariables (p := p) hlength hnodup hlacks
  obtain ⟨hkeeps, hsize⟩ := keeps_withVariables σ.opened (parameterVariables p names types)
  rw [Frame.withVariables_eq, List.nil_append] at hrepresents
  obtain ⟨ψ, τ, hv, hkeeps', hψ, hm⟩ :=
    hc.completes rfl hrepresents (hkeeps.register.trans hR) (hsize.trans σ.size_opened)
  have hkept := (keepsIn_withVariables (σ := σ.opened) hlisted).trans hkeeps'
  refine ⟨τ.leaving σ.env, ?_, hkept.leaving, hψ.leaving h.visible, hm⟩
  simp only [inChild_eq_ok, bind_eq_ok, defineParameters_eq_ok h.opened hlength]
  exact ⟨τ, ⟨(), _, ⟨hnodup, hlacks, rfl⟩, hv⟩, rfl⟩

theorem ChecksFunctions.completes {n : ScopeId} {fs fs' : List Node}
    (hc : ChecksFunctions S φ n fs fs' ψ) :
    ∀ {σ}, Represents [φ] σ → σ.store.scopes.size = n →
      ∃ m, Completes S [ψ] σ (visitAll visit fs) fs' m := by
  induction hc with
  | nil =>
    rintro σ h rfl
    exact ⟨_, σ, rfl, .refl σ, h, rfl⟩
  | @function φ n name parameters types returnName R ss ss' b p m fs fs' ψ hlength hR hlacks hnodup
      hat hparameters hbody _ ih =>
    rintro σ h rfl
    have hrepresents := h.withFunction
      (f := { name, parameterTypes := types, returnType := R, origin := p }) hlacks
    have hsize (f : Function Unit) : (σ.withFunction f).store.scopes.size =
        σ.store.scopes.size := Store.size_modifyScope
    rw [← hsize] at hbody
    simp only [← hsize { name, parameterTypes := types, returnType := R, origin := p }]
      at hparameters
    obtain ⟨τ, hv, hkeeps, hrepresents', hm⟩ :=
      completes_body hlength hnodup (hrepresents.register (some R)) rfl hparameters hbody
    obtain ⟨k, σ', hv', hkeeps', hψ, hk⟩ := ih (hrepresents'.register σ.register) hm
    have hkept : KeepsIn S σ { τ with register := σ.register } :=
      ⟨⟨hkeeps.env, rfl, (σ.extends_withFunction _).trans hkeeps.bindings⟩, fun hS =>
        hkeeps.listed (State.withFunction_extends hS (h.active ▸ hat))⟩
    refine ⟨k, σ', ?_, hkept.trans hkeeps', hψ, hk⟩
    simp only [visitAll, bind_eq_ok, pure_eq_ok]
    refine ⟨_, _, ?_, fs', σ', hv', rfl, rfl⟩
    rw [visit_eq, attached_eq_ok, step, ← h.active]
    simp only [bind_eq_ok, pure_eq_ok, require_eq_ok, decide_eq_true_eq, mapM_resolve_eq_ok,
      returnedType_eq_ok, defineFunction_eq_ok, visitBody, inFunction_eq_ok]
    exact ⟨(), σ, ⟨by rw [hlength, List.length_map], rfl⟩, types, σ, ⟨rfl, rfl⟩, R, σ, ⟨hR, rfl⟩, _, _,
      ⟨h.lacksFunction_iff.mpr hlacks, rfl, rfl⟩, ss', _, ⟨τ, hv, rfl⟩, rfl, rfl⟩

/-! ## Programs -/

/-- The state in which the analysis of a program starts. -/
theorem represents_start : Represents [builtins] (Analysis.start {} none) := by
  refine ⟨rfl, ?_, ?_, List.nodup_singleton _, ?_⟩
  · rintro φ hφ
    rw [List.mem_singleton.mp hφ]
    rfl
  · rintro φ hφ
    rw [List.mem_singleton.mp hφ]
    exact Nat.zero_lt_one
  · rintro φ hφ
    rw [List.mem_singleton.mp hφ]
    exact ⟨List.nodup_nil, List.nodup_singleton _⟩

theorem extends_start
    (h : ∀ g ∈ builtins.scope.functions, S.functionAt? ⟨0, g.name, g.arity⟩ = some g) :
    (Analysis.start {} none).store.Extends S := by
  have hscope (i : ScopeId) : (Analysis.start {} none).store.scope i =
      if i = 0 then builtins.scope else {} := by
    cases i <;> rfl
  refine ⟨fun {ref v} hv => ?_, fun {ref f} hf => ?_⟩
  · rw [Store.variableAt?, hscope] at hv
    split at hv <;> cases hv
  · rw [Store.functionAt?, hscope] at hf
    split at hf
    next hzero =>
      obtain ⟨hmem, hname, harity⟩ :=
        (Frame.functionNamed?_eq_some (φ := builtins) ⟨List.nodup_nil, List.nodup_singleton _⟩).mp hf
      have hat := h f hmem
      rwa [hname, harity, ← hzero] at hat
    · cases hf

/-- **Only programs that are well typed are accepted.** The store afterwards is the table of all
bindings. -/
theorem wellTyped_of_visit {t d : Node} (ht : t.IsProgram N)
    (hv : visit t (Analysis.start {} none) = .ok d σ) : t.WellTyped σ.store d := by
  cases ht with
  | source hgs hfs =>
    rw [visit_eq, attached_eq_ok, step] at hv
    simp only [bind_eq_ok, pure_eq_ok, require_eq_ok, lookupFunction_eq_ok, decide_eq_true_eq] at hv
    obtain ⟨gs', σ₁, hg, fs', σ₂, hf, ⟨ref, f⟩, _, ⟨hmain, rfl⟩, _, _, ⟨hinteger, rfl⟩, rfl, rfl⟩ := hv
    obtain ⟨hkeeps, hsize, φ, hφ, hglobals⟩ := checksGlobals_of_visitAll hgs represents_start hg
    obtain ⟨hkeeps', ψ, hψ, hfunctions⟩ := checksFunctions_of_visitAll hfs hφ hf
    rw [hsize] at hfunctions
    refine .source (fun g hmem => ?_) (hglobals hkeeps'.bindings) (hfunctions (.refl _))
      (hψ.findFunction?_iff.mp hmain) (accepts_integer_iff.mpr hinteger)
    exact (hkeeps.trans hkeeps').bindings.functionAt?
      ((represents_start.functionAt?_iff List.mem_cons_self).mpr hmem)

/-- **All programs that are well typed are accepted.** The table has all bindings of the store
afterwards. -/
theorem visit_of_wellTyped {t d : Node} (h : t.WellTyped S d) :
    ∃ σ, visit t (Analysis.start {} none) = .ok d σ ∧ σ.store.Extends S := by
  cases h with
  | source hprint hgs hfs hmain ha =>
    obtain ⟨σ₁, hg, hkeeps, hφ, hsize⟩ := hgs.completes represents_start
    obtain ⟨m, σ₂, hf, hkeeps', hψ, -⟩ := hfs.completes hφ hsize
    refine ⟨σ₂, ?_, hkeeps'.listed (hkeeps.listed (extends_start hprint))⟩
    rw [visit_eq, attached_eq_ok, step]
    simp only [bind_eq_ok, pure_eq_ok, require_eq_ok, lookupFunction_eq_ok, decide_eq_true_eq]
    exact ⟨_, σ₁, hg, _, σ₂, hf, (_, _), σ₂, ⟨hψ.findFunction?_iff.mpr hmain, rfl⟩, (), σ₂,
      ⟨accepts_integer_iff.mp ha, rfl⟩, rfl, rfl⟩

theorem analyze_eq_ok_iff_visit {t d : Node} :
    t.analyze = .ok d ↔ ∃ σ, visit t (Analysis.start {} none) = .ok d σ := by
  unfold Node.analyze
  cases visit t (Analysis.start {} none) <;> simp

end PlcLang.Typing
