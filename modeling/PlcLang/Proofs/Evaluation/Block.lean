import PlcLang.Proofs.Evaluation.Lawful

/-!
# Blocks and calls

What a block leaves behind, given the promises for its statements, and with this what a call gives.

* `Sound.block`, `Sound.inBlock`: statements in the active scope and in one of their own.
* `bindParameters`: the scope of a call.
* `Sound.values`, `Sound.invoke`: the arguments of a call and the call.
-/

namespace PlcLang.Run

open Typing

variable {D : Discipline} {S : Store Unit} {d : Node} {V G : Node → Run Value} {R : Ty} {Γ : Context}
  {φ ψ : Frame} {w : World} {s s' s'' : State Body String} {P Q : List Ty → Prop}

/-! ## States -/

theorem Kept.refl (h : Stands D S d w s Γ) (hP : P w.lists) : Kept D S d w Γ s s P :=
  ⟨rfl, w, .refl w, h, hP⟩

theorem Kept.trans {w' : World} (henv : s'.env = s.env) (hw : w.Grows w')
    (h : Kept D S d w' Γ s' s'' P) : Kept D S d w Γ s s'' P := by
  obtain ⟨henv', w'', hw', hs, hP⟩ := h
  exact ⟨henv'.trans henv, w'', hw.trans hw', hs, hP⟩

theorem Kept.imp (h : Kept D S d w Γ s s' P) (hPQ : ∀ Λ, w.lists <+: Λ → P Λ → Q Λ) :
    Kept D S d w Γ s s' Q := by
  obtain ⟨henv, w', hw, hs, hP⟩ := h
  exact ⟨henv, w', hw, hs, hPQ _ hw.lists hP⟩

theorem Kept.passed (h : Kept D S d w (φ :: Γ) s s' P) : Passed D S d w Γ s s' φ P := by
  obtain ⟨henv, w', hw, hs, hP⟩ := h
  exact ⟨henv, w', hw.off _, hs, hP⟩

theorem Passed.trans {w' : World} (henv : s'.env = s.env) (hw : w.GrowsOff s.env.scope w')
    (h : Passed D S d w' Γ s' s'' ψ P) : Passed D S d w Γ s s'' ψ P := by
  obtain ⟨henv', w'', hw', hs, hP⟩ := h
  exact ⟨henv'.trans henv, w'', hw.trans (henv ▸ hw'), hs, hP⟩

theorem Passed.imp (h : Passed D S d w Γ s s' ψ P) (hPQ : ∀ Λ, P Λ → Q Λ) :
    Passed D S d w Γ s s' ψ Q := by
  obtain ⟨henv, w', hw, hs, hP⟩ := h
  exact ⟨henv, w', hw, hs, hPQ _ hP⟩

theorem Leaves.imp {v : Value} {p q : Prop} {Λ : List Ty} (h : Leaves D R v p Λ) (hpq : p → q) :
    Leaves D R v q Λ :=
  h.imp_right fun ⟨hv, hp⟩ => ⟨hv, hpq hp⟩

theorem leaves_carryOn {p : Prop} {Λ : List Ty} (hp : p) : Leaves D R .carryOn p Λ := .inr ⟨nofun, hp⟩

/-- A block in a new scope leaves the scopes around it as they were. -/
theorem Passed.leaving {env : Env} {Δ : Context} (hs : Stands D S d w s Γ)
    (h : Passed D S d w.opened Δ (s.openedIn env) s' ψ P) :
    Kept D S d w Γ s (s'.leaving s.env) P := by
  obtain ⟨-, w', hw, hs', hP⟩ := h
  change w.opened.GrowsOff s.store.scopes.size w' at hw
  rw [hs.store.size] at hw
  exact ⟨rfl, w', hw.leaving, hs.leaving hw.leaving hs'.store, hP⟩

/-! ## Blocks -/

/-- A block runs up to the first statement that returns. -/
theorem Sound.block (hsound : Sound D S d V G) (hΓ : Γ ≠ []) {n m : ScopeId} {ss ss' : List Node}
    (hc : Checks S R (φ :: Γ) n ss ss' m) (hall : ∀ a ∈ ss', a.Everywhere D.allows)
    (hs : Stands D S d w s (φ :: Γ)) :
    Agrees D.fails (Run.block V ss') (Run.block G ss') s fun v s' =>
      ∃ ψ, Passed D S d w Γ s s' ψ (Leaves D R v (¬ EndsInReturn ss')) := by
  induction ss' generalizing φ n ss w s with
  | nil =>
    refine .pure ⟨φ, (Kept.refl hs (leaves_carryOn ?_)).passed⟩
    rintro ⟨init, e, p, he⟩
    exact List.append_ne_nil_of_right_ne_nil _ (List.cons_ne_nil _ _) he.symm
  | cons a' ss' ih =>
    obtain ⟨a, as, rfl⟩ : ∃ a as, ss = a :: as := by cases hc <;> exact ⟨_, _, rfl⟩
    obtain ⟨ha, hall⟩ := List.forall_mem_cons.mp hall
    refine .bind (hsound.statement hΓ hc ha hs) fun v s₁ ⟨ψ, henv, w', hw, hs₁, hleaves⟩ => ?_
    rcases hleaves with ⟨r, rfl, hr⟩ | ⟨hv, hlast, k, hrest⟩
    · exact .pure ⟨ψ, henv, w', hw, hs₁, .inl ⟨r, rfl, hr⟩⟩
    · have hnext : Agrees D.fails (Run.block V ss') (Run.block G ss') s₁ fun v s' =>
          ∃ ψ, Passed D S d w Γ s s' ψ (Leaves D R v (¬ EndsInReturn (a' :: ss'))) := by
        refine (ih hrest hall hs₁).mono fun v' s₂ ⟨χ, hχ⟩ => ⟨χ, (hχ.trans henv hw).imp fun Λ hleaves => ?_⟩
        refine hleaves.imp fun hnot ⟨init, e, p, he⟩ => ?_
        -- the last statement is either the first one or the last of the others
        cases init with
        | nil => exact hlast e p (List.cons.inj he).1
        | cons b init => exact hnot ⟨init, e, p, (List.cons.inj he).2⟩
      cases v with
      | returned r => exact absurd rfl (hv r)
      | scalar | list | carryOn => exact hnext

/-- A block that has a scope of its own. -/
theorem Sound.inBlock (hsound : Sound D S d V G) {n m : ScopeId} {ss ss' : List Node}
    (hc : Checks S R (⟨n, {}⟩ :: Γ) (n + 1) ss ss' m) (hall : ∀ a ∈ ss', a.Everywhere D.allows)
    (hs : Stands D S d w s Γ) :
    Agrees D.fails (Walk.inChild (Run.block V ss')) (Walk.inChild (Run.block G ss')) s fun v s' =>
      Kept D S d w Γ s s' (Leaves D R v True) := by
  refine .inChild ((hsound.block hs.sees.ne_nil hc hall (hs.opened n)).mono fun v s' ⟨ψ, hpassed⟩ => ?_)
  exact (hpassed.leaving hs).imp fun Λ _ hleaves => hleaves.imp fun _ => trivial

/-! ## Calls -/

/-- The scope of a call gets the parameters with the values of the arguments. -/
theorem bindParameters_ends (hD : D.Lawful d) (hΓ : Γ ≠ []) {F : Stop → Prop} {n : ScopeId} {p : Place}
    {names : List Name} {types : List Ty} {values : List Value} {vs : List Variable}
    (hlength : names.length = types.length) (hvalues : List.Forall₂ (D.holds w.lists) types values)
    (hnames : names.Nodup) (hfree : ∀ name ∈ names, ∀ v ∈ vs, v.name ≠ name)
    (hr : Frame.RecordedIn S d ⟨n, { «variables» := vs ++ parameterVariables p names types }⟩)
    (hs : Stands D S d w s (⟨n, { «variables» := vs }⟩ :: Γ)) :
    Ends F (bindParameters p names values) s fun _ s' =>
      Passed D S d w Γ s s' ⟨n, { «variables» := vs ++ parameterVariables p names types }⟩
        fun _ => True := by
  induction names generalizing types values vs w s with
  | nil =>
    refine .pure ?_
    rw [parameterVariables, List.zipWith_nil_left, List.append_nil]
    exact (Kept.refl hs trivial).passed
  | cons name names ih =>
    obtain ⟨τ, types, rfl⟩ := List.exists_cons_of_length_eq_add_one hlength.symm
    obtain ⟨hname, hnames⟩ := List.nodup_cons.mp hnames
    obtain ⟨hlacks, hfree⟩ := List.forall_mem_cons.mp hfree
    cases hvalues with
    | @cons _ value _ values hvalue hvalues =>
      have happend : vs ++ parameterVariables p (name :: names) (τ :: types) =
          (vs ++ [{ name, type := τ, origin := p }]) ++ parameterVariables p names types := by
        rw [List.append_assoc]
        rfl
      rw [happend] at hr ⊢
      have hr' : (Frame.withVariable ⟨n, { «variables» := vs }⟩
          { name, type := τ, origin := p }).RecordedIn S d :=
        ⟨fun v hv => hr.variableAt? v (List.mem_append_left _ hv), List.forall_mem_nil _,
          fun v hv => hr.creates v (List.mem_append_left _ hv), List.forall_mem_nil _⟩
      obtain ⟨w', hw, hs'⟩ := hs.withVariable (v := { name, type := τ, origin := p })
        (u := { name, value, origin := p }) ⟨rfl, rfl, rfl, hvalue⟩ hlacks hr' (.inl hΓ)
      refine .bind (P := fun _ s' => s' = s.withVariable { name, value, origin := p })
        (.defineVariable (hs.variableNamed?_eq_none hlacks) rfl) ?_
      rintro _ _ rfl
      have hvalues' := hvalues.imp fun _ _ hv => hD.mono hw.lists hv
      refine (ih (Nat.succ.inj hlength) hvalues' hnames ?_ hr hs').mono fun _ _ h => h.trans rfl hw
      intro other hother v hv
      rcases List.mem_append.mp hv with hv | hv
      · exact hfree other hother v hv
      · rw [List.mem_singleton.mp hv]
        rintro rfl
        exact hname hother

/-- Arguments are evaluated in order. -/
theorem Sound.values (hD : D.Lawful d) (hsound : Sound D S d V G) {as : List Typed}
    (has : ∀ a ∈ as, HasType Γ a.plain a.filled a.type)
    (hall : ∀ a ∈ as, a.filled.Everywhere D.allows) (hs : Stands D S d w s Γ) :
    Agrees D.fails (Run.values V (as.map Typed.filled)) (Run.values G (as.map Typed.filled)) s
      fun vs s' => Kept D S d w Γ s s' fun Λ => List.Forall₂ (D.holds Λ) (as.map Typed.type) vs := by
  induction as generalizing w s with
  | nil => exact .pure (.refl hs .nil)
  | cons a as ih =>
    obtain ⟨ha, has⟩ := List.forall_mem_cons.mp has
    obtain ⟨halla, hall⟩ := List.forall_mem_cons.mp hall
    refine .bind (hsound.expression ha halla hs) fun v s₁ ⟨henv, w₁, hw₁, hs₁, hv⟩ => ?_
    refine .bind (ih has hall hs₁) fun vs s₂ hkept => .pure ?_
    exact (hkept.imp fun Λ hΛ hvs => .cons (hD.mono hΛ hv) hvs).trans henv hw₁

/-- What is printed does not matter. -/
theorem printLine_ends {F : Stop → Prop} {text : String} (hs : Stands D S d w s Γ) (hP : P w.lists) :
    Ends F (printLine text) s fun _ s' => Kept D S d w Γ s s' P :=
  .of_ok rfl ⟨rfl, w, .refl w, ⟨hs.store, hs.sees, hs.recorded⟩, hP⟩

/-- A call of a function with arguments of the types of its parameters gives a value of its return
type. -/
theorem Sound.invoke (hD : D.Lawful d) (hsound : Sound D S d V G) {f : Function Unit}
    {g : Function Body} {vs : List Value} (hg : FunctionHolds D S d w f g)
    (hvs : List.Forall₂ (D.holds w.lists) f.parameterTypes vs) (hs : Stands D S d w s Γ) :
    Agrees D.fails (Run.invoke V g vs) (Run.invoke G g vs) s fun v s' =>
      Kept D S d w Γ s s' (D.holds · f.returnType v) := by
  obtain ⟨b, hb, hbody⟩ := hg.body
  have hbodyFor : g.bodyFor vs.length = .ok b := by
    rw [Function.bodyFor, hb, hg.arity, Function.arity, hvs.length_eq]
    exact if_pos rfl
  refine .bind (P := fun b' s' => b' = b ∧ s' = s) (.lift ?_ ?_) ?_
  · rw [hbodyFor]
    rintro _ ⟨⟩
    exact ⟨rfl, rfl⟩
  · rw [hbodyFor]
    exact nofun
  rintro _ _ ⟨rfl, rfl⟩
  cases hbody with
  | print hf =>
    obtain rfl := List.mem_singleton.mp hf
    cases hvs with
    | cons hv _ =>
      refine .bind_same (hD.textOf hv) fun text => ?_
      exact .bind (printLine_ends hs (P := (D.holds · .nil .nil)) (hD.literal .nil)) fun _ _ hkept =>
        .pure hkept
  | @code n m φ names ss ss' p _ hc hr hscope hfunctions hlength hnames hall hend =>
    have hopened := Stands.openedIn hs.store ⟨0, []⟩ (.program hscope hfunctions)
      (fun ψ hψ => hr ψ (List.mem_cons_of_mem _ hψ)) n
    have hvs : List.Forall₂ (D.holds w.opened.lists) f.parameterTypes vs := hvs
    refine .inChildOf (.bind (bindParameters_ends hD (List.cons_ne_nil _ _) hlength hvs hnames
      (fun _ _ => List.forall_mem_nil _) (hr _ List.mem_cons_self) hopened) fun _ s₁ ⟨henv, w₁, hw₁, hs₁, _⟩ => ?_)
    refine .bind (hsound.block (List.cons_ne_nil _ _) hc hall hs₁) fun v s₂ ⟨ψ, hpassed⟩ => ?_
    obtain ⟨henv', w₂, hw₂, hs₂, hleaves⟩ := (hpassed.trans henv hw₁).leaving hs
    rcases hleaves with ⟨r, rfl, hr⟩ | ⟨hv, hlast⟩
    · exact .pure ⟨henv', w₂, hw₂, hs₂, hr⟩
    · have hnil := hend.resolve_left hlast w₂.lists
      cases v with
      | returned r => exact absurd rfl (hv r)
      | scalar | list | carryOn => exact .pure ⟨henv', w₂, hw₂, hs₂, hnil⟩

end PlcLang.Run
