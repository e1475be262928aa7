import PlcLang.Proofs.Typing.Expression

/-!
# The analysis of blocks

The visit of the statements of a block succeeds just if they are well typed in the context that the
state represents. It leaves the scopes around the block as they are.

* `Keeps`: what a visit leaves as it is.
* `sound_statement`, `checks_of_visitAll`: what is accepted is well typed.
* `Checks.completes`: what is well typed is accepted.
-/

namespace PlcLang.Typing

open Walk Analysis

variable {N : String → Prop} {S : Store Unit} {Γ : Context} {σ σ' : State Unit (Option Ty)}

/-- A visit moves to no other scope and to no other function, and loses no binding. -/
structure Keeps (σ σ' : State Unit (Option Ty)) : Prop where
  env : σ'.env = σ.env
  /-- The function around is the same. -/
  register : σ'.register = σ.register
  /-- No binding is lost. -/
  bindings : σ.store.Extends σ'.store

namespace Keeps

variable {σ'' : State Unit (Option Ty)}

theorem refl (σ : State Unit (Option Ty)) : Keeps σ σ := ⟨rfl, rfl, .refl _⟩

theorem trans (h : Keeps σ σ') (k : Keeps σ' σ'') : Keeps σ σ'' :=
  ⟨k.env.trans h.env, k.register.trans h.register, h.bindings.trans k.bindings⟩

theorem withVariable (σ : State Unit (Option Ty)) (v : Variable) : Keeps σ (σ.withVariable v) :=
  ⟨rfl, rfl, σ.extends_withVariable v⟩

/-- Whoever enters a new scope and leaves it again keeps what was kept inside. -/
theorem leaving (h : Keeps σ.opened σ') : Keeps σ (σ'.leaving σ.env) :=
  ⟨rfl, h.register, σ.extends_opened.trans h.bindings⟩

end Keeps

/-! ## New variables -/

/-- The value of a new variable: none, or one whose visit is sound. -/
def SoundValue (Γ : Context) (σ : State Unit (Option Ty)) (value : Node) : Prop :=
  value = .missing ∨ value.isPresent = true ∧ Sound Γ σ value

theorem soundValue_of_isOptional (h : Represents Γ σ) {value : Node} (hv : value.IsOptional N) :
    SoundValue Γ σ value :=
  hv.imp id fun hv => ⟨hv.isPresent, sound_expression h hv⟩

/-- The value is visited in `σ`, the type found out afterwards, and both compared in another
state. -/
theorem initial_of_eq_ok {typeName : Name} {value value' : Node} {untyped : Fault} {τ : Ty}
    {σ₁ σ₂ σ₃ σ₄ : State Unit (Option Ty)} {u : Unit} (hv : SoundValue Γ σ value)
    (h₁ : whenPresent value (visit value) σ = .ok value' σ₁)
    (h₂ : declaredType typeName value' untyped σ₁ = .ok τ σ₂)
    (h₃ : expectPresent τ value' σ₃ = .ok u σ₄) :
    Initial Γ typeName value value' τ ∧ σ = σ₁ ∧ σ = σ₂ ∧ σ₃ = σ₄ := by
  rcases hv with rfl | ⟨hp, hs⟩
  · obtain ⟨rfl, rfl⟩ := pure_eq_ok.mp h₁
    obtain ⟨-, rfl⟩ := pure_eq_ok.mp h₃
    cases typeName with
    | none => exact absurd h₂ raise_eq_ok
    | some t =>
      obtain ⟨ht, rfl⟩ := resolve_eq_ok.mp h₂
      cases ht
      exact ⟨.named τ, rfl, rfl, rfl⟩
  · rw [whenPresent, if_pos hp] at h₁
    obtain ⟨⟨ρ, hρ⟩, rfl⟩ := hs h₁
    rw [expectPresent, if_pos hρ.isPresent', expect_eq_ok] at h₃
    obtain ⟨⟨ρ', hρ', ha⟩, rfl⟩ := h₃
    obtain rfl := Option.some.inj (hρ.type?.symm.trans hρ')
    cases typeName with
    | none =>
      rw [declaredType, if_pos hρ.isPresent', typeOf_eq_ok] at h₂
      obtain ⟨hτ, rfl⟩ := h₂
      obtain rfl := Option.some.inj (hρ.type?.symm.trans hτ)
      exact ⟨.inferred hρ, rfl, rfl, rfl⟩
    | some t =>
      obtain ⟨ht, rfl⟩ := resolve_eq_ok.mp h₂
      cases ht
      exact ⟨.checked τ hρ ha, rfl, rfl, rfl⟩

/-- The type of a new variable is found, and its value fits. -/
theorem Initial.eq_ok (h : Represents Γ σ) {typeName : Name} {value value' : Node} {τ : Ty}
    (hi : Initial Γ typeName value value' τ) (untyped : Fault) (σ' : State Unit (Option Ty)) :
    whenPresent value (visit value) σ = .ok value' σ ∧
      declaredType typeName value' untyped σ = .ok τ σ ∧
      expectPresent τ value' σ' = .ok () σ' := by
  cases hi with
  | inferred hτ =>
    rw [whenPresent, if_pos hτ.isPresent, declaredType, if_pos hτ.isPresent', expectPresent,
      if_pos hτ.isPresent', typeOf_eq_ok, expect_eq_ok]
    exact ⟨hτ.visit_eq_ok h, ⟨hτ.type?, rfl⟩, ⟨τ, hτ.type?, .refl τ⟩, rfl⟩
  | named => exact ⟨rfl, resolve_eq_ok.mpr ⟨rfl, rfl⟩, rfl⟩
  | checked _ hσ ha =>
    rw [whenPresent, if_pos hσ.isPresent, expectPresent, if_pos hσ.isPresent', expect_eq_ok]
    exact ⟨hσ.visit_eq_ok h, resolve_eq_ok.mpr ⟨rfl, rfl⟩, ⟨_, hσ.type?, ha⟩, rfl⟩

theorem Initial.isSome {typeName : Name} {value value' : Node} {τ : Ty}
    (hi : Initial Γ typeName value value' τ) : (typeName.isSome || value.isPresent) = true := by
  cases hi with
  | inferred hτ => exact hτ.isPresent
  | named | checked => rfl

/-! ## Soundness -/

/-- A visit of `s` that succeeds checks `s`, before whatever is well typed behind it, with every
table that has the bindings made so far. -/
def SoundStatement (R : Ty) (s : Node) : Prop :=
  ∀ {φ Γ σ s' σ'}, Represents (φ :: Γ) σ → σ.register = some R → visit s σ = .ok s' σ' →
    Keeps σ σ' ∧ ∃ ψ, Represents (ψ :: Γ) σ' ∧ ∀ {S ss ss' m}, σ'.store.Extends S →
      Checks S R (ψ :: Γ) σ'.store.scopes.size ss ss' m →
        Checks S R (φ :: Γ) σ.store.scopes.size (s :: ss) (s' :: ss') m

variable {R : Ty}

theorem checks_of_visitAll {ss ss' : List Node} {φ : Frame} (hss : ∀ s ∈ ss, SoundStatement R s)
    (h : Represents (φ :: Γ) σ) (hR : σ.register = some R) (hv : visitAll visit ss σ = .ok ss' σ') :
    Keeps σ σ' ∧ (∃ ψ, Represents (ψ :: Γ) σ') ∧ ∀ {S}, σ'.store.Extends S →
      Checks S R (φ :: Γ) σ.store.scopes.size ss ss' σ'.store.scopes.size := by
  induction ss generalizing φ σ ss' with
  | nil =>
    rw [visitAll, pure_eq_ok] at hv
    obtain ⟨rfl, rfl⟩ := hv
    exact ⟨.refl σ, ⟨φ, h⟩, fun _ => .nil⟩
  | cons s ss ih =>
    simp only [visitAll, bind_eq_ok, pure_eq_ok] at hv
    obtain ⟨s', τ, hs, ss', _, hrest, rfl, rfl⟩ := hv
    obtain ⟨hkeeps, ψ, hψ, hchecks⟩ := hss s List.mem_cons_self h hR hs
    obtain ⟨hkeeps', hψ', hchecks'⟩ := ih (fun s hs => hss s (List.mem_cons_of_mem _ hs)) hψ
      (hkeeps.register.trans hR) hrest
    exact ⟨hkeeps.trans hkeeps', hψ', fun hS =>
      hchecks (hkeeps'.bindings.trans hS) (hchecks' hS)⟩

/-- A block in a scope of its own. -/
theorem checks_of_inChild {ss ss' : List Node} (hss : ∀ s ∈ ss, SoundStatement R s)
    (h : Represents Γ σ) (hR : σ.register = some R)
    (hv : inChild (visitAll visit ss) σ = .ok ss' σ') :
    Keeps σ σ' ∧ Represents Γ σ' ∧ ∀ {S}, σ'.store.Extends S →
      Checks S R (⟨σ.store.scopes.size, {}⟩ :: Γ) (σ.store.scopes.size + 1) ss ss'
        σ'.store.scopes.size := by
  obtain ⟨τ, hτ, rfl⟩ := inChild_eq_ok.mp hv
  obtain ⟨hkeeps, ⟨ψ, hψ⟩, hchecks⟩ := checks_of_visitAll hss h.opened hR hτ
  refine ⟨hkeeps.leaving, hψ.leaving h.visible, fun hS => ?_⟩
  rw [← σ.size_opened]
  exact hchecks hS

theorem sound_declaration {name typeName : Name} {value : Node} {b : Option VariableRef} {p : Place}
    (hv : ∀ {Γ σ}, Represents Γ σ → SoundValue Γ σ value) :
    SoundStatement R (.declaration name typeName value b p) := by
  intro φ Γ σ s' σ' h hR hs
  rw [visit_eq, attached_eq_ok, step] at hs
  simp only [bind_eq_ok, pure_eq_ok, require_eq_ok, defineVariable_eq_ok] at hs
  obtain ⟨_, _, ⟨-, rfl⟩, value', σ₁, h₁, τ, σ₂, h₂, _, _, ⟨hnew, rfl, rfl⟩, _, _, h₃, rfl, rfl⟩ := hs
  obtain ⟨hi, rfl, rfl, rfl⟩ := initial_of_eq_ok (hv h) h₁ h₂ h₃
  have hlacks := h.lacksVariable_iff.mp hnew
  have hrepresents := h.withVariable (v := { name, type := τ, origin := p }) hlacks
  refine ⟨.withVariable σ _, _, hrepresents, fun hS hchecks => ?_⟩
  rw [h.active]
  have hsize : (σ.withVariable { name, type := τ, origin := p }).store.scopes.size =
      σ.store.scopes.size := Store.size_modifyScope
  rw [hsize] at hchecks
  have hat := (hrepresents.variableAt?_iff List.mem_cons_self).mpr
    (List.mem_append_right _ List.mem_cons_self)
  exact .declaration hi hlacks (hS.variableAt? hat) hchecks

theorem sound_assignment {receiver value : Node} {p : Place}
    (hr : ∀ {Γ σ}, Represents Γ σ → Sound Γ σ receiver)
    (hv : ∀ {Γ σ}, Represents Γ σ → Sound Γ σ value) :
    SoundStatement R (.assignment receiver value p) := by
  intro φ Γ σ s' σ' h hR hs
  rw [visit_eq, attached_eq_ok, step] at hs
  simp only [bind_eq_ok, pure_eq_ok, require_eq_ok, typeOf_eq_ok, expect_eq_ok, accessed, part_eq_ok,
    get_eq_ok] at hs
  obtain ⟨_, _, ⟨haccess, rfl⟩, receiver', _, hreceiver, v, _,
    ⟨ref, _, ⟨href, rfl⟩, _, _, ⟨rfl, rfl⟩, hstore, rfl⟩, _, _, ⟨hmutable, rfl⟩, value', _, hvalue, τ, _,
    ⟨hτ, rfl⟩, _, _, ⟨⟨ρ, hρ, ha⟩, rfl⟩, rfl, rfl⟩ := hs
  obtain ⟨⟨τ', hτ'⟩, rfl⟩ := hr h hreceiver
  obtain ⟨⟨ρ', hρ'⟩, rfl⟩ := hv h hvalue
  obtain rfl := Option.some.inj (hτ'.type?.symm.trans hτ)
  obtain rfl := Option.some.inj (hρ'.type?.symm.trans hρ)
  refine ⟨.refl σ, φ, h, fun _ hchecks => ?_⟩
  cases receiver with
  | access name offset t b q =>
    have hsees : SeesVariable name (φ :: Γ) ref v := by
      cases hτ' with
      | reference hu | item hu _ =>
        cases href
        have hat := Store.variableAt?_of_findVariable? (h.findVariable?_iff.mpr hu)
        rwa [Option.some.inj (hstore.symm.trans hat)]
    exact .assignment hsees hmutable hτ' hρ' ha hchecks
  | _ => cases haccess

theorem sound_conditional {c : Node} {ts es : List Node} {p : Place}
    (hc : ∀ {Γ σ}, Represents Γ σ → Sound Γ σ c) (hts : ∀ s ∈ ts, SoundStatement R s)
    (hes : ∀ s ∈ es, SoundStatement R s) : SoundStatement R (.conditional c ts es p) := by
  intro φ Γ σ s' σ' h hR hs
  rw [visit_eq, attached_eq_ok, step] at hs
  simp only [bind_eq_ok, pure_eq_ok, require_eq_ok, expect_eq_ok] at hs
  obtain ⟨c', _, hvisit, _, _, ⟨⟨τ', hτ', ha⟩, rfl⟩, _, _, ⟨hempty, rfl⟩, ts', σ₁, h₁, es', σ₂, h₂, rfl,
    rfl⟩ := hs
  obtain ⟨⟨τ, hτ⟩, rfl⟩ := hc h hvisit
  obtain rfl := Option.some.inj (hτ.type?.symm.trans hτ')
  rw [accepts_boolean_iff] at ha
  subst ha
  obtain ⟨hkeeps, hrepresents, hthen⟩ := checks_of_inChild hts h hR h₁
  obtain ⟨hkeeps', hrepresents', helse⟩ :=
    checks_of_inChild hes hrepresents (hkeeps.register.trans hR) h₂
  refine ⟨hkeeps.trans hkeeps', φ, hrepresents', fun hS hchecks => ?_⟩
  have hthen := hthen (hkeeps'.bindings.trans hS)
  cases ts with
  | nil => cases hempty
  | cons t ts =>
    cases ts' with
    | nil => cases hthen
    | cons t' ts' => exact .conditional hτ hthen (helse hS) hchecks

theorem sound_whileLoop {c : Node} {ts : List Node} {p : Place}
    (hc : ∀ {Γ σ}, Represents Γ σ → Sound Γ σ c) (hts : ∀ s ∈ ts, SoundStatement R s) :
    SoundStatement R (.whileLoop c ts p) := by
  intro φ Γ σ s' σ' h hR hs
  rw [visit_eq, attached_eq_ok, step] at hs
  simp only [bind_eq_ok, pure_eq_ok, expect_eq_ok] at hs
  obtain ⟨c', _, hvisit, _, _, ⟨⟨τ', hτ', ha⟩, rfl⟩, ts', σ₁, h₁, rfl, rfl⟩ := hs
  obtain ⟨⟨τ, hτ⟩, rfl⟩ := hc h hvisit
  obtain rfl := Option.some.inj (hτ.type?.symm.trans hτ')
  rw [accepts_boolean_iff] at ha
  subst ha
  obtain ⟨hkeeps, hrepresents, hbody⟩ := checks_of_inChild hts h hR h₁
  exact ⟨hkeeps, φ, hrepresents, fun hS => .whileLoop hτ (hbody hS)⟩

theorem sound_returning {e : Node} {p : Place} (he : ∀ {Γ σ}, Represents Γ σ → Sound Γ σ e) :
    SoundStatement R (.returning e p) := by
  intro φ Γ σ s' σ' h hR hs
  rw [visit_eq, attached_eq_ok, step] at hs
  simp only [bind_eq_ok, get_eq_ok] at hs
  obtain ⟨_, _, ⟨rfl, rfl⟩, hs⟩ := hs
  rw [hR] at hs
  simp only [bind_eq_ok, pure_eq_ok, expect_eq_ok] at hs
  obtain ⟨e', _, hvisit, _, _, ⟨⟨τ', hτ', ha⟩, rfl⟩, rfl, rfl⟩ := hs
  obtain ⟨⟨τ, hτ⟩, rfl⟩ := he h hvisit
  obtain rfl := Option.some.inj (hτ.type?.symm.trans hτ')
  exact ⟨.refl σ, φ, h, fun _ => .returning hτ ha⟩

/-! ### Switches -/

/-- The values of the cases before the last one. -/
theorem typed_of_visitCaseValues {τ : Ty} {arms : List Node.Arm} {last : Node}
    {values : List Node} (harms : ∀ a ∈ arms, Sound Γ σ a.1)
    (h : visitCaseValues visit (some τ) (arms.map Node.ofArm ++ [last]) σ = .ok values σ') :
    (∃ as : List Typed, (∀ a ∈ as, HasType Γ a.plain a.filled a.type ∧ τ.Accepts a.type) ∧
      as.map Typed.plain = arms.map (·.1) ∧ values = as.map Typed.filled ++ [.missing]) ∧
      σ = σ' := by
  induction arms generalizing values with
  | nil =>
    obtain ⟨rfl, rfl⟩ := pure_eq_ok.mp h
    exact ⟨⟨[], by simp, rfl, rfl⟩, rfl⟩
  | cons a arms ih =>
    have hne : (arms.map Node.ofArm ++ [last]).isEmpty = false := by simp
    simp only [List.map_cons, List.cons_append, visitCaseValues, hne, Node.ofArm, visitCaseValue_case,
      Bool.false_eq_true, if_false, bind_eq_ok, require_eq_ok, pure_eq_ok, part_eq_ok,
      expect_eq_ok] at h
    obtain ⟨v, _, ⟨_, _, ⟨-, rfl⟩, hv⟩, _, _, ⟨hτ, rfl⟩, _, _, ⟨⟨ρ, hρ, ha⟩, rfl⟩, vs, _, hvs, rfl,
      rfl⟩ := h
    cases hτ
    obtain ⟨⟨ρ', hρ'⟩, rfl⟩ := harms a List.mem_cons_self hv
    obtain rfl := Option.some.inj (hρ'.type?.symm.trans hρ)
    obtain ⟨⟨as, has, hplain, rfl⟩, rfl⟩ :=
      ih (fun a ha => harms a (List.mem_cons_of_mem _ ha)) hvs
    exact ⟨⟨⟨a.1, v, ρ'⟩ :: as, List.forall_mem_cons.mpr ⟨⟨hρ', ha⟩, has⟩,
      by rw [List.map_cons, List.map_cons, hplain], rfl⟩, rfl⟩

/-- The blocks of all cases, whatever their values are. -/
theorem checks_of_visitAll_cases {arms : List Node.Arm} {cs : List Node} (values : List Node)
    (harms : ∀ a ∈ arms, ∀ s ∈ a.2.1, SoundStatement R s) (h : Represents Γ σ)
    (hR : σ.register = some R) (hlength : values.length = arms.length)
    (hv : visitAll visit (arms.map Node.ofArm) σ = .ok cs σ') :
    Keeps σ σ' ∧ Represents Γ σ' ∧ ∃ ks : List TypedCase,
      ks.map TypedCase.plain = arms.map Node.ofArm ∧ ks.map TypedCase.value' = values ∧
      List.zipWith Node.withCaseValue values cs = ks.map TypedCase.filled ∧
      TypedCase.Numbered σ.store.scopes.size ks σ'.store.scopes.size ∧
      ∀ {S}, σ'.store.Extends S → ∀ k ∈ ks,
        Checks S R (⟨k.first, {}⟩ :: Γ) (k.first + 1) k.block k.block' k.next := by
  induction arms generalizing σ cs values with
  | nil =>
    obtain ⟨rfl, rfl⟩ := pure_eq_ok.mp hv
    obtain rfl := List.length_eq_zero_iff.mp hlength
    exact ⟨.refl σ, h, [], rfl, rfl, rfl, rfl, by simp⟩
  | cons a arms ih =>
    obtain ⟨v, values, rfl⟩ := List.exists_cons_of_length_eq_add_one hlength
    simp only [List.map_cons, visitAll, bind_eq_ok, pure_eq_ok] at hv
    obtain ⟨c, σ₁, hc, cs, _, hcs, rfl, rfl⟩ := hv
    rw [Node.ofArm, visit_eq, attached_eq_ok, step] at hc
    simp only [bind_eq_ok, pure_eq_ok] at hc
    obtain ⟨ss', _, hblock, rfl, rfl⟩ := hc
    obtain ⟨hkeeps, hrepresents, hchecks⟩ :=
      checks_of_inChild (harms a List.mem_cons_self) h hR hblock
    obtain ⟨hkeeps', hrepresents', ks, hplain, hvalue, hfilled, hnumbered, hks⟩ :=
      ih values (fun a ha => harms a (List.mem_cons_of_mem _ ha)) hrepresents
        (hkeeps.register.trans hR) (Nat.succ.inj hlength) hcs
    refine ⟨hkeeps.trans hkeeps', hrepresents',
      ⟨a.1, a.2.1, v, ss', a.2.2, σ.store.scopes.size, _⟩ :: ks, ?_, ?_, ?_, ⟨rfl, hnumbered⟩,
      fun hS => List.forall_mem_cons.mpr ⟨hchecks (hkeeps'.bindings.trans hS), hks hS⟩⟩
    · rw [List.map_cons, hplain]
      rfl
    · rw [List.map_cons, hvalue]
    · rw [List.zipWith_cons_cons, hfilled]
      rfl

/-- What holds of the typed values of cases holds of the values of the cases. -/
theorem forall_values {P : Node → Node → Prop} {as : List Typed} {ks : List TypedCase}
    (hplain : ks.map TypedCase.value = as.map Typed.plain)
    (hfilled : ks.map TypedCase.value' = as.map Typed.filled)
    (h : ∀ a ∈ as, P a.plain a.filled) : ∀ k ∈ ks, P k.value k.value' := by
  induction ks generalizing as with
  | nil => simp
  | cons k ks ih =>
    obtain ⟨a, as, rfl, ha, has⟩ := List.map_eq_cons_iff.mp hplain.symm
    obtain ⟨ha', has'⟩ := List.cons.inj hfilled
    obtain ⟨hhead, htail⟩ := List.forall_mem_cons.mp h
    exact List.forall_mem_cons.mpr ⟨ha ▸ ha' ▸ hhead, ih has.symm has' htail⟩

theorem value_eq_of_plain_eq {ks : List TypedCase} {arms : List Node.Arm}
    (h : ks.map TypedCase.plain = arms.map Node.ofArm) :
    ks.map TypedCase.value = arms.map (·.1) := by
  have hvalue := congrArg (List.map Node.caseValue?) h
  simp only [List.map_map] at hvalue
  have hsome : Function.Injective (some : Node → Option Node) := fun _ _ => Option.some.inj
  refine List.map_injective_iff.mpr hsome ?_
  rw [List.map_map, List.map_map]
  exact hvalue

theorem sound_switch {c : Node} {arms : List Node.Arm} {ss : List Node} {p q : Place}
    (hc : ∀ {Γ σ}, Represents Γ σ → Sound Γ σ c)
    (hvalues : ∀ a ∈ arms, ∀ {Γ σ}, Represents Γ σ → Sound Γ σ a.1)
    (hblocks : ∀ a ∈ arms, ∀ s ∈ a.2.1, SoundStatement R s) (hss : ∀ s ∈ ss, SoundStatement R s) :
    SoundStatement R (.switch c (arms.map Node.ofArm ++ [.case .missing ss q]) p) := by
  intro φ Γ σ s' σ' h hR hs
  rw [visit_eq, attached_eq_ok, step] at hs
  simp only [bind_eq_ok, pure_eq_ok, requireDefault, List.getLast?_concat, part_eq_ok,
    require_eq_ok, Node.caseValue?] at hs
  obtain ⟨c', _, hvisit, _, _, ⟨_, _, ⟨-, rfl⟩, -, rfl⟩, values, _, hvs, cs, _, hcs, rfl, rfl⟩ := hs
  obtain ⟨⟨τ, hτ⟩, rfl⟩ := hc h hvisit
  rw [hτ.type?] at hvs
  obtain ⟨⟨as, has, hplain, rfl⟩, rfl⟩ :=
    typed_of_visitCaseValues (fun a ha => hvalues a ha h) hvs
  have hlength : as.length = arms.length := by simpa using congrArg List.length hplain
  have hall : arms.map Node.ofArm ++ [.case .missing ss q] =
      (arms ++ [(Node.missing, ss, q)]).map Node.ofArm := by rw [List.map_append]; rfl
  have hstatements : ∀ a ∈ arms ++ [(Node.missing, ss, q)], ∀ s ∈ a.2.1, SoundStatement R s := by
    intro a ha
    rcases List.mem_append.mp ha with ha | ha
    · exact hblocks a ha
    · rw [List.mem_singleton.mp ha]
      exact hss
  rw [hall] at hcs ⊢
  obtain ⟨hkeeps, hrepresents, ks, hkplain, hkvalue, hkfilled, hnumbered, hks⟩ :=
    checks_of_visitAll_cases (as.map Typed.filled ++ [.missing]) hstatements h hR
      (by simp [hlength]) hcs
  refine ⟨hkeeps, φ, hrepresents, fun hS hchecks => ?_⟩
  -- the last case is the default, the others have the typed values
  obtain ⟨ks, rest, rfl, hkvalue', hrest⟩ := List.map_eq_append_iff.mp hkvalue
  obtain ⟨default, rfl, hdefault'⟩ := List.map_eq_singleton_iff.mp hrest
  have hvalue := value_eq_of_plain_eq hkplain
  rw [List.map_append, List.map_append] at hvalue
  obtain ⟨hvalue, hdefault⟩ := List.append_inj' hvalue rfl
  have htyped : ∀ k ∈ ks, ∃ ρ, HasType (φ :: Γ) k.value k.value' ρ ∧ τ.Accepts ρ :=
    forall_values (P := fun e e' => ∃ ρ, HasType (φ :: Γ) e e' ρ ∧ τ.Accepts ρ)
      (hvalue.trans hplain.symm) hkvalue' fun a ha => ⟨a.type, has a ha⟩
  rw [← hkplain, hkfilled]
  exact .switch ks default hτ htyped (List.singleton_inj.mp hdefault) hdefault' (hks hS)
    hnumbered hchecks

/-- **Only statements that are well typed are accepted.** -/
theorem sound_statement {s : Node} (hs : s.IsStatement N) : SoundStatement R s := by
  induction hs with
  | expressionStatement he =>
    intro φ Γ σ s' σ' h hR hv
    rw [visit_eq, attached_eq_ok, step] at hv
    simp only [bind_eq_ok, pure_eq_ok, require_eq_ok] at hv
    obtain ⟨_, _, ⟨hcall, rfl⟩, e', _, he', rfl, rfl⟩ := hv
    obtain ⟨⟨τ, hτ⟩, rfl⟩ := sound_expression h he he'
    exact ⟨.refl σ, φ, h, fun _ => .expressionStatement hcall hτ⟩
  | declaration _ _ hv => exact sound_declaration fun h => soundValue_of_isOptional h hv
  | assignment hr hv =>
    exact sound_assignment (fun h => sound_expression h hr) fun h => sound_expression h hv
  | conditional hc _ _ hts hes => exact sound_conditional (fun h => sound_expression h hc) hts hes
  | switch arms hc hvalues _ _ hblocks hss =>
    exact sound_switch (fun h => sound_expression h hc)
      (fun a ha _ _ h => sound_expression h (hvalues a ha)) hblocks hss
  | whileLoop hc _ hts => exact sound_whileLoop (fun h => sound_expression h hc) hts
  | returning he => exact sound_returning fun h => sound_expression h he

/-! ## Completeness -/

/-- A visit keeps what it should keep, and makes no binding that the table lacks. -/
structure KeepsIn (S : Store Unit) (σ σ' : State Unit (Option Ty)) : Prop extends Keeps σ σ' where
  /-- All bindings are in the table if those before are. -/
  listed : σ.store.Extends S → σ'.store.Extends S

namespace KeepsIn

variable {σ'' : State Unit (Option Ty)}

theorem refl (σ : State Unit (Option Ty)) : KeepsIn S σ σ := ⟨.refl σ, fun h => h⟩

theorem trans (h : KeepsIn S σ σ') (k : KeepsIn S σ' σ'') : KeepsIn S σ σ'' :=
  ⟨h.toKeeps.trans k.toKeeps, fun hS => k.listed (h.listed hS)⟩

theorem withVariable {v : Variable} (hv : S.variableAt? ⟨σ.env.scope, v.name⟩ = some v) :
    KeepsIn S σ (σ.withVariable v) :=
  ⟨.withVariable σ v, fun hS => State.withVariable_extends hS hv⟩

theorem leaving (h : KeepsIn S σ.opened σ') : KeepsIn S σ (σ'.leaving σ.env) :=
  ⟨h.toKeeps.leaving, fun hS => h.listed (σ.opened_extends.trans hS)⟩

end KeepsIn

/-- A visit that begins in `σ` succeeds with `a`, after which `m` scopes are there. -/
def Completes {α : Type} (S : Store Unit) (Γ : Context) (σ : State Unit (Option Ty))
    (x : Analysis α) (a : α) (m : ScopeId) : Prop :=
  ∃ σ', x σ = .ok a σ' ∧ KeepsIn S σ σ' ∧ Represents Γ σ' ∧ σ'.store.scopes.size = m

/-- The same where the active scope may gain variables. -/
def CompletesIn {α : Type} (S : Store Unit) (Γ : Context) (σ : State Unit (Option Ty))
    (x : Analysis α) (a : α) (m : ScopeId) : Prop :=
  ∃ φ, Completes S (φ :: Γ) σ x a m

theorem CompletesIn.inChild {ss ss' : List Node} {m : ScopeId} (h : Represents Γ σ)
    (hc : CompletesIn S Γ σ.opened (visitAll visit ss) ss' m) :
    Completes S Γ σ (inChild (visitAll visit ss)) ss' m := by
  obtain ⟨φ, σ', hv, hkeeps, hrepresents, hsize⟩ := hc
  exact ⟨_, inChild_eq_ok.mpr ⟨σ', hv, rfl⟩, hkeeps.leaving, hrepresents.leaving h.visible, hsize⟩

theorem CompletesIn.cons {s s' : Node} {ss ss' : List Node} {m : ScopeId}
    {τ : State Unit (Option Ty)} (hs : visit s σ = .ok s' τ) (hk : KeepsIn S σ τ)
    (hc : CompletesIn S Γ τ (visitAll visit ss) ss' m) :
    CompletesIn S Γ σ (visitAll visit (s :: ss)) (s' :: ss') m := by
  obtain ⟨φ, υ, hv, hkeeps, hrepresents, hsize⟩ := hc
  refine ⟨φ, υ, ?_, hk.trans hkeeps, hrepresents, hsize⟩
  simp only [visitAll, bind_eq_ok, pure_eq_ok]
  exact ⟨s', τ, hs, ss', υ, hv, rfl, rfl⟩

theorem visitCaseValues_typed {τ : Ty} {ks : List TypedCase} (last : Node) (h : Represents Γ σ)
    (hks : ∀ k ∈ ks, ∃ ρ, HasType Γ k.value k.value' ρ ∧ τ.Accepts ρ) :
    visitCaseValues visit (some τ) (ks.map TypedCase.plain ++ [last]) σ =
      .ok (ks.map TypedCase.value' ++ [.missing]) σ := by
  induction ks with
  | nil => rfl
  | cons k ks ih =>
    obtain ⟨⟨ρ, hρ, ha⟩, hks⟩ := List.forall_mem_cons.mp hks
    have hne : (ks.map TypedCase.plain ++ [last]).isEmpty = false := by simp
    simp only [List.map_cons, List.cons_append, visitCaseValues, hne, TypedCase.plain,
      visitCaseValue_case, Bool.false_eq_true, if_false, bind_eq_ok, require_eq_ok, pure_eq_ok,
      part_eq_ok, expect_eq_ok]
    exact ⟨k.value', σ, ⟨(), σ, ⟨hρ.isPresent, rfl⟩, hρ.visit_eq_ok h⟩, τ, σ, ⟨rfl, rfl⟩, (), σ,
      ⟨⟨ρ, hρ.type?, ha⟩, rfl⟩, _, σ, ih hks, rfl, rfl⟩

/-- The cases with their blocks visited and their values as they were. -/
theorem completes_cases {ks : List TypedCase} {m : ScopeId} (h : Represents Γ σ)
    (hR : σ.register = some R)
    (hks : ∀ k ∈ ks, ∀ {σ}, Represents Γ σ → σ.register = some R → σ.store.scopes.size = k.first →
      Completes S Γ σ (Walk.inChild (visitAll visit k.block)) k.block' k.next)
    (hnumbered : TypedCase.Numbered σ.store.scopes.size ks m) :
    Completes S Γ σ (visitAll visit (ks.map TypedCase.plain))
      (ks.map fun k => .case k.value k.block' k.place) m := by
  induction ks generalizing σ with
  | nil => exact ⟨σ, rfl, .refl σ, h, hnumbered⟩
  | cons k ks ih =>
    obtain ⟨hk, hks⟩ := List.forall_mem_cons.mp hks
    obtain ⟨hfirst, hnumbered⟩ := hnumbered
    obtain ⟨σ₁, hv, hkeeps, hrepresents, hsize⟩ := hk h hR hfirst.symm
    obtain ⟨σ₂, hv', hkeeps', hrepresents', hsize'⟩ :=
      ih hrepresents (hkeeps.register.trans hR) hks (hsize ▸ hnumbered)
    refine ⟨σ₂, ?_, hkeeps.trans hkeeps', hrepresents', hsize'⟩
    simp only [List.map_cons, visitAll, bind_eq_ok, pure_eq_ok]
    refine ⟨_, σ₁, ?_, _, σ₂, hv', rfl, rfl⟩
    rw [TypedCase.plain, visit_eq, attached_eq_ok, step]
    simp only [bind_eq_ok, pure_eq_ok]
    exact ⟨_, σ₁, hv, rfl, rfl⟩

theorem zipWith_withCaseValue (ks : List TypedCase) :
    List.zipWith Node.withCaseValue (ks.map TypedCase.value')
        (ks.map fun k => .case k.value k.block' k.place) = ks.map TypedCase.filled := by
  induction ks with
  | nil => rfl
  | cons k ks ih => rw [List.map_cons, List.map_cons, List.zipWith_cons_cons, ih]; rfl

theorem visit_assignment_eq_ok {name : Name} {offset receiver' value value' : Node} {t : Option Ty}
    {b : Option VariableRef} {p q : Place} {ref : VariableRef} {v : Variable} {ρ τ : Ty}
    (h : Represents Γ σ) (hv : SeesVariable name Γ ref v) (hm : v.isMutable = true)
    (hr : HasType Γ (.access name offset t b q) receiver' τ) (hvalue : HasType Γ value value' ρ)
    (ha : τ.Accepts ρ) :
    visit (.assignment (.access name offset t b q) value p) σ =
      .ok (.assignment receiver' value' p) σ := by
  have hat := Store.variableAt?_of_findVariable? (h.findVariable?_iff.mpr hv)
  have hreceiver : receiver'.accessed? = some ref := by
    cases hr with
    | reference hu | item hu _ =>
      have hfind := (h.findVariable?_iff.mpr hv).symm.trans (h.findVariable?_iff.mpr hu)
      cases hfind
      rfl
  rw [visit_eq, attached_eq_ok, step]
  simp only [bind_eq_ok, pure_eq_ok, require_eq_ok, typeOf_eq_ok, expect_eq_ok, accessed,
    part_eq_ok, get_eq_ok]
  exact ⟨(), σ, ⟨rfl, rfl⟩, receiver', σ, hr.visit_eq_ok h, v, σ,
    ⟨ref, σ, ⟨hreceiver, rfl⟩, σ, σ, ⟨rfl, rfl⟩, hat, rfl⟩, (), σ, ⟨hm, rfl⟩, value', σ,
    hvalue.visit_eq_ok h, τ, σ, ⟨hr.type?, rfl⟩, (), σ, ⟨⟨ρ, hvalue.type?, ha⟩, rfl⟩, rfl, rfl⟩

/-- A switch takes its cases with their blocks visited, and fills in their values. -/
theorem visit_switch_eq_ok {c c' : Node} {p : Place} {τ : Ty} {ks : List TypedCase} {default : TypedCase}
    (h : Represents Γ σ) (hτ : HasType Γ c c' τ)
    (hks : ∀ k ∈ ks, ∃ ρ, HasType Γ k.value k.value' ρ ∧ τ.Accepts ρ) (hd : default.value = .missing)
    (hd' : default.value' = .missing)
    (hcases : visitAll visit ((ks ++ [default]).map TypedCase.plain) σ =
      .ok ((ks ++ [default]).map fun k => .case k.value k.block' k.place) σ') :
    visit (.switch c ((ks ++ [default]).map TypedCase.plain) p) σ =
      .ok (.switch c' ((ks ++ [default]).map TypedCase.filled) p) σ' := by
  have hvalues := visitCaseValues_typed default.plain h hks
  have hdefault : default.plain.caseValue? = some .missing := by rw [TypedCase.plain, hd]; rfl
  rw [List.map_append, List.map_singleton] at hcases
  rw [visit_eq, attached_eq_ok, step]
  simp only [bind_eq_ok, pure_eq_ok, requireDefault, List.map_append, List.map_singleton,
    List.getLast?_concat, part_eq_ok, require_eq_ok]
  refine ⟨c', σ, hτ.visit_eq_ok h, (), σ, ⟨.missing, σ, ⟨hdefault, rfl⟩, rfl, rfl⟩, _, σ,
    hτ.type? ▸ hvalues, _, σ', hcases, ?_, rfl⟩
  rw [← hd', ← List.map_singleton (f := TypedCase.value'), ← List.map_append,
    zipWith_withCaseValue, List.map_append, List.map_singleton]

/-- **Statements that are well typed are accepted.** -/
theorem Checks.completes {Δ : Context} {n m : ScopeId} {ss ss' : List Node}
    (hc : Checks S R Δ n ss ss' m) : ∀ {φ Γ σ}, Δ = φ :: Γ → Represents Δ σ →
      σ.register = some R → σ.store.scopes.size = n → CompletesIn S Γ σ (visitAll visit ss) ss' m := by
  induction hc with
  | nil =>
    rintro φ Γ σ rfl h hR rfl
    exact ⟨φ, σ, rfl, .refl σ, h, rfl⟩
  | expressionStatement hcall hτ _ ih =>
    rintro φ Γ σ rfl h hR rfl
    refine .cons (τ := σ) ?_ (.refl σ) (ih rfl h hR rfl)
    rw [visit_eq, attached_eq_ok, step]
    simp only [bind_eq_ok, pure_eq_ok, require_eq_ok]
    exact ⟨(), σ, ⟨hcall, rfl⟩, _, σ, hτ.visit_eq_ok h, rfl, rfl⟩
  | @declaration φ Γ n name typeName value value' b p τ _ _ _ hi hlacks hat _ ih =>
    rintro _ _ σ ⟨⟩ h hR rfl
    have hkeeps : KeepsIn S σ (σ.withVariable { name, type := τ, origin := p }) :=
      .withVariable (h.active ▸ hat)
    refine .cons (τ := σ.withVariable { name, type := τ, origin := p }) ?_ hkeeps
      (ih rfl (h.withVariable hlacks) hR Store.size_modifyScope)
    obtain ⟨h₁, h₂, h₃⟩ := hi.eq_ok h (.untypedDeclaration name)
      (σ.withVariable { name, type := τ, origin := p })
    rw [visit_eq, attached_eq_ok, step, ← h.active]
    simp only [bind_eq_ok, pure_eq_ok, require_eq_ok, defineVariable_eq_ok]
    exact ⟨(), σ, ⟨hi.isSome, rfl⟩, value', σ, h₁, τ, σ, h₂, _, _,
      ⟨h.lacksVariable_iff.mpr hlacks, rfl, rfl⟩, (), _, h₃, rfl, rfl⟩
  | assignment hv hm hr hvalue ha _ ih =>
    rintro φ Γ σ rfl h hR rfl
    exact .cons (visit_assignment_eq_ok h hv hm hr hvalue ha) (.refl σ) (ih rfl h hR rfl)
  | conditional hτ _ _ _ hthen helse ih =>
    rintro φ Γ σ rfl h hR rfl
    obtain ⟨σ₁, h₁, hkeeps₁, hrepresents₁, rfl⟩ :=
      (hthen rfl h.opened hR σ.size_opened).inChild h
    have hR₁ := hkeeps₁.register.trans hR
    obtain ⟨σ₂, h₂, hkeeps₂, hrepresents₂, rfl⟩ :=
      (helse rfl hrepresents₁.opened hR₁ σ₁.size_opened).inChild hrepresents₁
    refine .cons (τ := σ₂) ?_ (hkeeps₁.trans hkeeps₂)
      (ih rfl hrepresents₂ (hkeeps₂.register.trans hR₁) rfl)
    rw [visit_eq, attached_eq_ok, step]
    simp only [bind_eq_ok, pure_eq_ok, require_eq_ok, expect_eq_ok]
    exact ⟨_, σ, hτ.visit_eq_ok h, (), σ, ⟨⟨_, hτ.type?, .refl _⟩, rfl⟩, (), σ, ⟨rfl, rfl⟩, _, σ₁, h₁,
      _, σ₂, h₂, rfl, rfl⟩
  | @switch Γ n c c' p τ l ss ss' m ks default hτ hks hd hd' _ hnumbered _ hblocks ih =>
    rintro φ Γ σ rfl h hR rfl
    have hcases : ∀ k ∈ ks ++ [default], ∀ {σ'}, Represents (φ :: Γ) σ' → σ'.register = some R →
        σ'.store.scopes.size = k.first →
        Completes S (φ :: Γ) σ' (Walk.inChild (visitAll visit k.block)) k.block' k.next := by
      intro k hk σ' h hR hsize
      exact (hblocks k hk (σ := σ'.opened) rfl (hsize ▸ h.opened) hR
        (hsize ▸ σ'.size_opened)).inChild h
    obtain ⟨σ₁, h₁, hkeeps, hrepresents, rfl⟩ := completes_cases h hR hcases hnumbered
    exact .cons (visit_switch_eq_ok h hτ hks hd hd' h₁) hkeeps
      (ih rfl hrepresents (hkeeps.register.trans hR) rfl)
  | whileLoop hτ _ _ hbody ih =>
    rintro φ Γ σ rfl h hR rfl
    obtain ⟨σ₁, h₁, hkeeps₁, hrepresents₁, rfl⟩ := (hbody rfl h.opened hR σ.size_opened).inChild h
    refine .cons (τ := σ₁) ?_ hkeeps₁ (ih rfl hrepresents₁ (hkeeps₁.register.trans hR) rfl)
    rw [visit_eq, attached_eq_ok, step]
    simp only [bind_eq_ok, pure_eq_ok, expect_eq_ok]
    exact ⟨_, σ, hτ.visit_eq_ok h, (), σ, ⟨⟨_, hτ.type?, .refl _⟩, rfl⟩, _, σ₁, h₁, rfl, rfl⟩
  | returning hτ ha _ ih =>
    rintro φ Γ σ rfl h hR rfl
    refine .cons (τ := σ) ?_ (.refl σ) (ih rfl h hR rfl)
    rw [visit_eq, attached_eq_ok, step]
    simp only [bind_eq_ok, get_eq_ok]
    refine ⟨σ, σ, ⟨rfl, rfl⟩, ?_⟩
    rw [hR]
    simp only [bind_eq_ok, pure_eq_ok, expect_eq_ok]
    exact ⟨_, σ, hτ.visit_eq_ok h, (), σ, ⟨⟨_, hτ.type?, ha⟩, rfl⟩, rfl, rfl⟩

end PlcLang.Typing
