import PlcLang.Proofs.Evaluation.Block

/-!
# Runs of expressions

An expression keeps its promise if its parts do.

* `resolves_of_hasType`: names in expressions mean what the analysis says.
* `Sound.step_binary`, `Sound.step_access`, `Sound.step_call`, …: one lemma for each kind.
* `Sound.step_expression`: all expressions.
-/

namespace PlcLang.Run

open Typing

variable {D : Discipline} {S : Store Unit} {d : Node} {V G : Node → Run Value} {Γ : Context}
  {w : World} {s : State Body String} {rounds : Nat}

/-! ## Names -/

theorem creates_origin {m : Node} {ref : VariableRef} {v : Variable} (h : m.Creates ref v) :
    m.isBinder = true ∧ v.origin = m.place := by
  cases m with
  | global | declaration => exact ⟨rfl, h.2.2⟩
  | function => exact ⟨rfl, h.2⟩
  | _ => exact h.elim

theorem createsFunction_origin {m : Node} {ref : FunctionRef} {f : Function Unit}
    (h : m.CreatesFunction ref f) : m.isBinder = true ∧ f.origin = m.place := by
  cases m with
  | function => exact ⟨rfl, h.2.2.2⟩
  | _ => exact h.elim

/-- The variable that is found was made where the analysis says. -/
theorem resolves_access (hs : Stands D S d w s Γ) {name : Name} {offset : Node} {t : Option Ty}
    {p : Place} {ref : VariableRef} {v : Variable} (hv : SeesVariable name Γ ref v) :
    Node.Resolves S d s (.access name offset t (some ref) p) := by
  obtain ⟨hat, hname, m, hm, hcreates⟩ := hs.recorded.variableAt? hv
  obtain ⟨id, _, u, hfind, -, -, -, hu⟩ := hs.lookupVariable hv
  obtain ⟨hbinder, horigin⟩ := creates_origin hcreates
  exact ⟨ref, v, m, _, u, rfl, hat, Node.mem_binders.mpr ⟨hm, hbinder⟩, hcreates, hfind, hu.name,
    hu.origin.trans horigin⟩

/-- The function that is found was made where the analysis says. -/
theorem resolves_call (hs : Stands D S d w s Γ) {name : Name} {arguments : List Node}
    {t : Option Ty} {p : Place} {ref : FunctionRef} {f : Function Unit}
    (hf : SeesFunction name arguments.length Γ ref f) :
    Node.Resolves S d s (.call name arguments t (some ref) p) := by
  obtain ⟨hat, -, -, hcreates⟩ := hs.recorded.functionAt? hf
  obtain ⟨id, g, hfind, -, hg⟩ := hs.lookupFunction hf
  refine ⟨ref, f, _, g, rfl, hat, hfind, ?_⟩
  rcases hcreates with hbuiltin | ⟨m, hm, hcreates⟩
  · obtain ⟨b, hb, hbody⟩ := hg.body
    cases hbody with
    | print => exact .inl ⟨hbuiltin, hb⟩
    | code hnone =>
      rw [List.mem_singleton.mp hbuiltin] at hnone
      cases hnone
  · obtain ⟨hbinder, horigin⟩ := createsFunction_origin hcreates
    exact .inr ⟨m, Node.mem_binders.mpr ⟨hm, hbinder⟩, hcreates, hg.name, hg.arity, hg.origin.trans horigin⟩

theorem resolves_of_hasType (hs : Stands D S d w s Γ) {e e' : Node} {τ : Ty}
    (he : HasType Γ e e' τ) : Node.Resolves S d s e' := by
  cases he with
  | reference hv | item hv => exact resolves_access hs hv
  | @call _ _ _ _ _ f as hf =>
    refine resolves_call (f := f) hs ?_
    rwa [List.length_map]
  | _ => trivial

/-! ## Operations -/

theorem operation_of_not_logical {op : Operator} {left right : Node}
    (hop : op.level? ≠ some .logical) :
    operation V op left right = (V left >>= fun l => V right >>= fun r => operate op l r) := by
  cases op <;> first | rfl | exact absurd rfl hop

theorem Sound.step_binary (hD : D.Lawful d) (hsound : Sound D S d V G) {op : Operator}
    {left left' right right' : Node} {p : Place} {ρ σ τ : Ty} (hl : HasType Γ left left' ρ)
    (hr : HasType Γ right right' σ) (hτ : OperatorType op ρ σ τ)
    (hall : (Node.binary op left' right' (some τ) p).Everywhere D.allows)
    (hs : Stands D S d w s Γ) :
    Agrees D.fails (operation V op left' right') (operation G op left' right') s fun v s' =>
      Kept D S d w Γ s s' (D.holds · τ v) := by
  obtain ⟨hallows, hchildren⟩ := Node.everywhere_iff.mp hall
  obtain ⟨hallL, hchildren⟩ := List.forall_mem_cons.mp hchildren
  have hallR := List.forall_mem_singleton.mp hchildren
  have hboolean (Λ : List Ty) (b : Bool) : D.holds Λ .boolean (.boolean b) := hD.literal (.boolean b)
  by_cases hop : op.level? = some .logical
  · cases hτ with
    | concatenation => cases hop
    | arithmetic h => rcases h with rfl | rfl | rfl | rfl <;> cases hop
    | power => cases hop
    | comparison h => cases h.symm.trans hop
    | logical =>
      -- whether the right operand is evaluated depends on the left one
      have hright {w₁ : World} {s₁ : State Body String} (henv : s₁.env = s.env) (hw : w.Grows w₁)
          (hs₁ : Stands D S d w₁ s₁ Γ) :
          Agrees D.fails (do return .boolean (← requireBoolean (← V right')))
            (do return .boolean (← requireBoolean (← G right'))) s₁ fun v s' =>
            Kept D S d w Γ s s' (D.holds · .boolean v) :=
        .bind (hsound.expression hr hallR hs₁) fun r s₂ ⟨henv', w₂, hw₂, hs₂, hr⟩ =>
          .bind_same (hD.requireBoolean hr) fun b =>
            .pure ⟨henv'.trans henv, w₂, hw.trans hw₂, hs₂, hboolean _ b⟩
      have hdone {b : Bool} {w₁ : World} {s₁ : State Body String} (henv : s₁.env = s.env)
          (hw : w.Grows w₁) (hs₁ : Stands D S d w₁ s₁ Γ) :
          Agrees D.fails (pure (.boolean b)) (pure (.boolean b)) s₁ fun v s' =>
            Kept D S d w Γ s s' (D.holds · .boolean v) :=
        .pure ((Kept.refl hs₁ (hboolean _ b)).trans henv hw)
      refine .bind (hsound.expression hl hallL hs) fun l s₁ ⟨henv, w₁, hw, hs₁, hl⟩ => ?_
      cases op with
      | and =>
        refine .bind_same (hD.requireBoolean hl) fun b => ?_
        cases b with
        | true => exact hright henv hw hs₁
        | false => exact hdone henv hw hs₁
      | or =>
        refine .bind_same (hD.requireBoolean hl) fun b => ?_
        cases b with
        | true => exact hdone henv hw hs₁
        | false => exact hright henv hw hs₁
      | _ => cases hop
  · rw [operation_of_not_logical hop, operation_of_not_logical hop]
    refine .bind (hsound.expression hl hallL hs) fun l s₁ ⟨henv, w₁, hw, hs₁, hlv⟩ => ?_
    refine .bind (hsound.expression hr hallR hs₁) fun r s₂ ⟨henv', w₂, hw₂, hs₂, hrv⟩ => ?_
    refine (hD.operate hallows hl.type? hr.type? hτ hop (hD.mono hw₂.lists hlv) hrv).mono ?_
    rintro v _ ⟨hv, rfl⟩
    exact ⟨henv'.trans henv, w₂, hw.trans hw₂, hs₂, hv⟩

/-! ## Variables and lists -/

/-- Looking a variable up succeeds. -/
theorem lookupVariable_ends (hs : Stands D S d w s Γ) {name : Name} {ref : VariableRef} {v : Variable}
    (hv : SeesVariable name Γ ref v) :
    Ends D.fails (Walk.lookupVariable name) s fun found s' => s' = s ∧
      VariableHolds D w.lists v found.2 ∧
      ∃ id vs, found.1 = ⟨id, v.name⟩ ∧ w.scopes[id]? = some vs ∧ v ∈ vs := by
  obtain ⟨id, vs, u, hfind, hvs, hmem, rfl, hu⟩ := hs.lookupVariable hv
  exact .lookupVariable hfind ⟨rfl, hu, id, vs, rfl, hvs, hmem⟩

theorem requireList_eq_list {F : Stop → Prop} {name : Name} {v : Value}
    (hF : ∀ e : Stop, e.SparesNames → F e) :
    Ends F (requireList name v) s fun id s' => v = .list id ∧ s' = s := by
  unfold requireList
  split
  · exact .pure ⟨rfl, rfl⟩
  · exact .raise (hF _ (.raised (.inl rfl)))

/-- An item of a list has the type of the list. -/
theorem Sound.item (hD : D.Lawful d) (hI : D.Indexes) (hsound : Sound D S d V G) {name : Name}
    {held : Value} {offset offset' : Node} {τ : Ty} (hheld : D.holds w.lists τ held)
    (ho : HasType Γ offset offset' .integer) (hall : offset'.Everywhere D.allows)
    (hs : Stands D S d w s Γ) :
    Agrees D.fails (Run.item V name held offset') (Run.item G name held offset') s fun v s' =>
      Kept D S d w Γ s s' (D.holds · τ v) := by
  have hfails (e : Stop) (he : e.SparesNames) : D.fails e := hI.fails he
  refine .bind (requireList_eq_list hfails) ?_
  rintro id _ ⟨rfl, rfl⟩
  refine .bind (hsound.expression ho hall hs) fun i s₁ ⟨henv, w₁, hw₁, hs₁, _⟩ => ?_
  refine .bind_same (requireInteger_ends.imp hfails) fun i => ?_
  refine .bind_same (requireIndex_ends fun _ => hfails _ (.raised (.inr rfl))) fun i => ?_
  refine .bind (P := fun t s' => t = s₁ ∧ s' = s₁) (.get ⟨rfl, rfl⟩) ?_
  rintro _ t ⟨rfl, rfl⟩
  cases hi : (t.store.list id)[i]? with
  | none => exact .throw (hfails _ .malformed)
  | some v =>
    have hv := hI.item (hD.mono hw₁.lists hheld) fun σ hσ => hs₁.store.item hσ (Array.mem_of_getElem? hi)
    exact .part rfl ⟨henv, w₁, hw₁, hs₁, hv⟩

theorem Sound.step_access (hsound : Sound D S d V G) (offset : Node) (hD : D.Lawful d) {name : Name}
    {offset' : Node} {t : Option Ty} {b : Option VariableRef} {p : Place} {ref : VariableRef}
    {v : Variable} (hv : SeesVariable name Γ ref v)
    (ho : offset' = .missing ∨ HasType Γ offset offset' .integer)
    (hall : (Node.access name offset' t b p).Everywhere D.allows) (hs : Stands D S d w s Γ) :
    Agrees D.fails (access V name offset') (access G name offset') s fun x s' =>
      Kept D S d w Γ s s' (D.holds · v.type x) := by
  obtain ⟨hallows, hchildren⟩ := Node.everywhere_iff.mp hall
  refine .bind (lookupVariable_ends hs hv) ?_
  rintro ⟨_, u⟩ _ ⟨rfl, hu, -⟩
  rcases ho with rfl | ho
  · exact .pure (.refl hs hu.value)
  · dsimp only
    rw [if_pos ho.isPresent', if_pos ho.isPresent']
    exact hsound.item hD (hD.item hallows ho.isPresent') hu.value ho
      (List.forall_mem_singleton.mp hchildren) hs

theorem Discipline.Lawful.items (hD : D.Lawful d) {τ : Ty} {σs : List Ty} {vs : List Value}
    {Λ : List Ty} (h : ∀ σ ∈ σs, τ.Accepts σ) (hvs : List.Forall₂ (D.holds Λ) σs vs) :
    ∀ v ∈ vs, D.holds Λ τ v := by
  induction hvs with
  | nil => exact List.forall_mem_nil _
  | cons hv _ ih =>
    obtain ⟨hσ, hσs⟩ := List.forall_mem_cons.mp h
    exact List.forall_mem_cons.mpr ⟨hD.accepts hσ hv, ih hσs⟩

/-- A new list has the type of its items, and leaves the scopes alone. -/
theorem newList_ends (hD : D.Lawful d) {F : Stop → Prop} {es : List Node} {τ : Ty} {p : Place}
    {items : List Value} (hallows : D.allows (.listLiteral es (some τ) p))
    (hitems : ∀ v ∈ items, D.holds w.lists τ v) (hs : Stands D S d w s Γ) :
    Ends F (newList items) s fun v s' => Kept D S d w Γ s s' (D.holds · τ v) := by
  have hprefix : w.lists <+: w.lists ++ [τ] := List.prefix_append _ _
  have hgrows : w.Grows { w with lists := w.lists ++ [τ] } := ⟨rfl, fun h => h, hprefix⟩
  have hsize : s.store.lists.size = w.lists.length := by
    rw [← Array.length_toList, hs.store.lists.length_eq]
  refine .of_ok rfl ⟨rfl, _, hgrows, hs.grow hgrows ?_ rfl, ?_⟩
  · exact hs.store.newList (fun _ _ => hD.mono hprefix) fun v hv => hitems v (List.mem_toArray.mp hv)
  · simpa only [Store.newList, hsize] using hD.list hallows

/-! ## Calls -/

theorem Discipline.Lawful.arguments (hD : D.Lawful d) {τs σs : List Ty} {vs : List Value}
    {Λ : List Ty} (h : List.Forall₂ Ty.Accepts τs σs) (hvs : List.Forall₂ (D.holds Λ) σs vs) :
    List.Forall₂ (D.holds Λ) τs vs := by
  induction h generalizing vs with
  | nil => exact hvs
  | cons hτ _ ih =>
    cases hvs with
    | cons hv hvs => exact .cons (hD.accepts hτ hv) (ih hvs)

theorem Sound.step_call (hD : D.Lawful d) (hsound : Sound D S d V G) {name : Name}
    {ref : FunctionRef} {f : Function Unit} {as : List Typed}
    (hf : SeesFunction name as.length Γ ref f) (has : ∀ a ∈ as, HasType Γ a.plain a.filled a.type)
    (haccepts : List.Forall₂ Ty.Accepts f.parameterTypes (as.map Typed.type))
    (hall : ∀ a ∈ as, a.filled.Everywhere D.allows) (hs : Stands D S d w s Γ) :
    Agrees D.fails (callWith V name (as.map Typed.filled)) (callWith G name (as.map Typed.filled)) s
      fun v s' => Kept D S d w Γ s s' (D.holds · f.returnType v) := by
  obtain ⟨id, g, hfind, -, hg⟩ := hs.lookupFunction hf
  refine .bind (P := fun found s' => found = (⟨id, name, as.length⟩, g) ∧ s' = s)
    (.lookupFunction (by rwa [List.length_map]) ⟨rfl, rfl⟩) ?_
  rintro _ _ ⟨rfl, rfl⟩
  refine .bind (hsound.values hD has hall hs) fun vs s₁ ⟨henv, w₁, hw, hs₁, hvs⟩ => ?_
  have hg₁ : FunctionHolds D S d w₁ f g :=
    hg.grow (hw.functions ▸ List.prefix_rfl) fun _ h => hw.scopes h
  exact (hsound.invoke hD hg₁ (hD.arguments haccepts hvs) hs₁).mono fun v s₂ hkept =>
    hkept.trans henv hw

/-! ## All expressions -/

/-- **An expression keeps its promise if its parts do.** -/
theorem Sound.step_expression (hD : D.Lawful d) (hsound : Sound D S d V G) {e e' : Node} {τ : Ty}
    (he : HasType Γ e e' τ) (hall : e'.Everywhere D.allows) (hs : Stands D S d w s Γ) :
    Agrees D.fails (step V rounds e') (step G rounds e') s fun v s' =>
      Kept D S d w Γ s s' (D.holds · τ v) := by
  obtain ⟨hallows, hchildren⟩ := Node.everywhere_iff.mp hall
  cases he with
  | literal hv => exact .pure (.refl hs (hD.literal hv))
  | group _ he => exact hsound.expression he (List.forall_mem_singleton.mp hchildren) hs
  | binary hl hr hτ => exact hsound.step_binary hD hl hr hτ hall hs
  | reference hv => exact hsound.step_access .missing hD hv (.inl rfl) hall hs
  | item hv ho => exact hsound.step_access _ hD hv (.inr ho) hall hs
  | call as hf has haccepts =>
    exact hsound.step_call hD hf has haccepts (List.forall_mem_map.mp hchildren) hs
  | list a as has haccepts =>
    refine .bind (hsound.values hD has (List.forall_mem_map.mp hchildren) hs) ?_
    intro vs s₁ ⟨henv, w₁, hw, hs₁, hvs⟩
    have hitems := hD.items (List.forall_mem_map.mpr haccepts) hvs
    exact (newList_ends hD hallows hitems hs₁).mono fun v s₂ hkept => hkept.trans henv hw

end PlcLang.Run
