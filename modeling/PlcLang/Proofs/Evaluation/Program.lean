import PlcLang.Proofs.Evaluation.Statement

/-!
# Runs of programs

All promises are kept in runs of every depth, by induction on the depth.

* `Sound.step_global`, `Sound.step_function`: the parts of a program.
* `sound_visit`: the promises are kept.
* `agrees_of_wellTyped`: what is promised of the run of a whole program.
-/

namespace PlcLang.Run

open Typing

variable {D : Discipline} {S : Store Unit} {d : Node} {V G : Node → Run Value} {φ ψ : Frame}
  {w : World} {s : State Body String} {rounds : Nat}

/-! ## Globals and functions -/

/-- A global keeps its promise if its value does. -/
theorem Sound.step_global (hD : D.Lawful d) (hsound : Sound D S d V G) {g g' : Node}
    {gs gs' : List Node} (hc : ChecksGlobals S φ (g :: gs) (g' :: gs') ψ)
    (hall : g'.Everywhere D.allows) (hbodies : ∀ f ∈ w.functions, f.body ≠ none)
    (hs : Between D S d w s φ) :
    Agrees D.fails (step V rounds g') (step G rounds g') s fun _ s' => ∃ χ w',
      w'.functions = w.functions ∧ Between D S d w' s' χ ∧ ChecksGlobals S χ gs gs' ψ := by
  obtain ⟨hallows, hchildren⟩ := Node.everywhere_iff.mp hall
  cases hc with
  | @global _ name typeName mutable _ value' _ p τ _ _ _ hi hlacks hat hrest =>
    have hr := (hs.stands.recorded φ List.mem_cons_self).withVariable
      (v := { name, type := τ, mutable, origin := p }) hat (hD.contains hallows) ⟨rfl, rfl, rfl⟩
    have hnil (ht : typeName = some τ.name) (hv : value' = .missing) : ∀ Λ, D.holds Λ τ .nil := by
      subst ht hv
      exact hD.global hallows
    have hdeclare := hsound.declare hD hi hlacks hnil hr (List.forall_mem_singleton.mp hchildren)
      (.inr hbodies) hs.stands
    refine .bind hdeclare fun _ s₁ ⟨_, w₁, hw₁, hs₁, _⟩ => .pure ⟨_, w₁, hw₁.functions, ?_, hrest⟩
    exact ⟨hw₁.functions.trans hs.functions, hs₁⟩

/-- The program's scope gets a function. -/
theorem declareFunction_ends {F : Stop → Prop} (hs : Between D S d w s φ) {f : Function Unit}
    {names : List Name} {ss : List Node} {p : Place} (hlacks : φ.LacksFunction f.name f.arity)
    (harity : names.length = f.arity) (horigin : f.origin = p)
    (hbody : BodyHolds D S d { w with functions := w.functions ++ [f] } f (.code ⟨0, []⟩ names ss p))
    (hr : (φ.withFunction f).RecordedIn S d) :
    Ends F (declareFunction f.name names ss p) s fun _ s' => ∃ w',
      Between D S d w' s' (φ.withFunction f) := by
  obtain ⟨hfunctions, hstands⟩ := hs
  have harity' : (names.map fun _ => Ty.any).length = f.arity := (List.length_map _).trans harity
  have hfree : (s.store.scope s.env.scope).functionNamed? f.name (names.map fun _ => Ty.any).length =
      none := by
    rw [harity', hstands.sees.program_eq]
    exact functionNamed?_eq_none_of_forall₂ hstands.store.functions (hfunctions ▸ hlacks)
  refine .bind (P := fun t s' => t = s ∧ s' = s) (.get ⟨rfl, rfl⟩) ?_
  rintro _ t ⟨rfl, rfl⟩
  refine .bind (.defineFunction (Q := fun _ s' => ∃ w', Between D S d w' s' (φ.withFunction f))
    hfree ?_) fun _ _ h => .pure h
  rw [← hstands.sees.program_eq] at hbody
  refine ⟨_, ?_, hstands.withFunction hfunctions hlacks
    ⟨rfl, harity', horigin.symm, _, rfl, hbody⟩ hr⟩
  rw [Frame.withFunction, hfunctions]

/-- A function keeps its promise: nothing is run yet. -/
theorem step_function (hD : D.Lawful d) {n : ScopeId} {f f' : Node} {fs fs' : List Node}
    (hc : ChecksFunctions S φ n (f :: fs) (f' :: fs') ψ) (hall : f'.Everywhere D.allows)
    (hs : Between D S d w s φ) :
    Agrees D.fails (step V rounds f') (step G rounds f') s fun _ s' => ∃ χ k w',
      Between D S d w' s' χ ∧ ChecksFunctions S χ k fs fs' ψ := by
  obtain ⟨hallows, hchildren⟩ := Node.everywhere_iff.mp hall
  cases hc with
  | @function _ _ name parameters types returnName R ss ss' _ p m _ _ _ hlength hR hlacks hnames hat
      hparameters hbody hrest =>
    have hr := hs.stands.recorded φ List.mem_cons_self
    have hrecorded := recorded_body
      (f := { name, parameterTypes := types, returnType := R, origin := p }) hr hat
      (hD.contains hallows) hlength.symm rfl hparameters
    have hscope := hs.stands.sees.active.1
    rw [hs.stands.sees.program_eq] at hscope
    have hfunctions (f : Function Unit) :
        (φ.withFunction f).scope.functions <+: w.functions ++ [f] := by
      rw [hs.functions]
      exact List.prefix_rfl
    have hdeclare := declareFunction_ends (F := D.fails) hs
      (f := { name, parameterTypes := types, returnType := R, origin := p }) hlacks hlength rfl
      (.code rfl hbody hrecorded hscope (hfunctions _) hlength hnames hchildren (hD.complete hallows hR))
      (hrecorded _ (List.mem_cons_of_mem _ List.mem_cons_self))
    exact .bind hdeclare fun _ s₁ ⟨w₁, hs₁⟩ => .pure ⟨_, m, w₁, hs₁, hrest⟩

/-! ## Sequences -/

theorem Sound.globals (hsound : Sound D S d V G) {gs gs' : List Node}
    (hc : ChecksGlobals S φ gs gs' ψ) (hall : ∀ g ∈ gs', g.Everywhere D.allows)
    (hbodies : ∀ f ∈ w.functions, f.body ≠ none) (hs : Between D S d w s φ) :
    Agrees D.fails (Run.values V gs') (Run.values G gs') s fun _ s' => ∃ w', Between D S d w' s' ψ := by
  induction gs' generalizing φ gs w s with
  | nil =>
    cases hc
    exact .pure ⟨w, hs⟩
  | cons g' gs' ih =>
    obtain ⟨g, gs, rfl⟩ : ∃ g as, gs = g :: as := by cases hc; exact ⟨_, _, rfl⟩
    obtain ⟨hg, hall⟩ := List.forall_mem_cons.mp hall
    refine .bind (hsound.global hc hg hbodies hs) fun v s₁ ⟨χ, w₁, hw₁, hs₁, hrest⟩ => ?_
    exact .bind (ih hrest hall (hw₁ ▸ hbodies) hs₁) fun vs s₂ hs₂ => .pure hs₂

theorem Sound.functions (hsound : Sound D S d V G) {n : ScopeId} {fs fs' : List Node}
    (hc : ChecksFunctions S φ n fs fs' ψ) (hall : ∀ f ∈ fs', f.Everywhere D.allows)
    (hs : Between D S d w s φ) :
    Agrees D.fails (Run.values V fs') (Run.values G fs') s fun _ s' => ∃ w', Between D S d w' s' ψ := by
  induction fs' generalizing φ n fs w s with
  | nil =>
    cases hc
    exact .pure ⟨w, hs⟩
  | cons f' fs' ih =>
    obtain ⟨f, fs, rfl⟩ : ∃ f as, fs = f :: as := by cases hc; exact ⟨_, _, rfl⟩
    obtain ⟨hf, hall⟩ := List.forall_mem_cons.mp hall
    refine .bind (hsound.function hc hf hs) fun v s₁ ⟨χ, k, w₁, hs₁, hrest⟩ => ?_
    exact .bind (ih hrest hall hs₁) fun vs s₂ hs₂ => .pure hs₂

/-! ## Every depth -/

/-- A node keeps its promise if the next step does, and passes the check on the way. -/
theorem agrees_visit (hD : D.Lawful d) {otherwise : Nat → Node → Run Value} {depth : Nat} {n : Node}
    {Q : Value → State Body String → Prop} (hresolves : Node.Resolves S d s n)
    (htype : ∀ τ v s', n.type? = some τ → Q v s' → ∃ Λ, D.holds Λ τ v)
    (h : Agrees D.fails (step (visit depth) depth n)
      (step (guarded (Checked D S d) otherwise depth) depth n) s Q) :
    Agrees D.fails (visit (depth + 1) n) (guarded (Checked D S d) otherwise (depth + 1) n) s Q := by
  have hattached := h.attached fun e => hD.attach n
  have hchecked : Checked D S d (depth + 1) n s := by
    refine ⟨hresolves, fun τ v s' hτ hv => htype τ v s' hτ ?_⟩
    have hresult := hattached.2
    rw [show Walk.attached n (step (visit depth) depth n) s = .ok v s' from hv] at hresult
    exact hresult
  refine ⟨?_, hattached.2⟩
  exact (if_pos hchecked).trans hattached.1

theorem Checks.type?_eq_none {R : Ty} {Γ : Context} {n m : ScopeId} {a a' : Node} {ss ss' : List Node}
    (hc : Checks S R Γ n (a :: ss) (a' :: ss') m) : a'.type? = none := by
  cases hc <;> rfl

/-- **The promises are kept in runs of every depth.** -/
theorem sound_visit (hD : D.Lawful d) (otherwise : Nat → Node → Run Value) (depth : Nat) :
    Sound D S d (visit depth) (guarded (Checked D S d) otherwise depth) := by
  induction depth with
  | zero =>
    exact ⟨fun _ _ _ => .throw hD.unfinished, fun _ _ _ _ => .throw hD.unfinished,
      fun _ _ _ => .throw hD.unfinished, fun _ _ _ _ => .throw hD.unfinished,
      fun _ _ _ => .throw hD.unfinished⟩
  | succ depth ih =>
    refine ⟨fun he hall hs => ?_, fun hΓ hc hall hs => ?_, fun hc hall hs => ?_,
      fun hc hall hbodies hs => ?_, fun hc hall hs => ?_⟩
    · refine agrees_visit hD (resolves_of_hasType hs he) ?_ (ih.step_expression hD he hall hs)
      rintro τ v s' hτ ⟨-, w', -, -, hv⟩
      cases he.type?.symm.trans hτ
      exact ⟨w'.lists, hv⟩
    · refine agrees_visit hD (resolves_of_checks hs hc) ?_ (ih.step_statement hD hΓ hc hall hs)
      exact fun τ v s' hτ => nomatch (Checks.type?_eq_none hc).symm.trans hτ
    · exact agrees_visit hD trivial nofun (ih.step_case hc hall hs)
    · refine agrees_visit hD ?_ ?_ (ih.step_global hD hc hall hbodies hs)
      · cases hc
        trivial
      · cases hc
        exact nofun
    · refine agrees_visit hD ?_ ?_ (step_function hD hc hall hs)
      · cases hc
        trivial
      · cases hc
        exact nofun

/-! ## Whole programs -/

/-- A run starts in an empty scope in which only `print` is defined. -/
theorem between_start (h : ∀ f ∈ builtins.scope.functions,
    S.functionAt? ⟨0, f.name, f.arity⟩ = some f) :
    Between D S d ⟨builtins.scope.functions, [[]], []⟩ (start {} none) builtins := by
  refine ⟨rfl, ⟨rfl, fun {i vs} hi => ?_, fun {i vs} hi => ?_, ?_, ?_, fun {i} hi => ?_, .nil⟩, ?_, ?_⟩
  · cases i with
    | zero =>
      cases hi
      exact .nil
    | succ => cases hi
  · obtain rfl : vs = [] := List.mem_singleton.mp (List.mem_of_getElem? hi)
    exact List.nodup_nil
  · exact .cons ⟨rfl, rfl, rfl, _, rfl, .print List.mem_cons_self⟩ .nil
  · exact List.nodup_singleton _
  · rw [Store.scope_of_ge (Nat.one_le_iff_ne_zero.mpr hi)]
  · exact .program rfl List.prefix_rfl
  · exact .cons (recorded_builtins h) nofun

/-- **The run of a well typed program ends as the discipline allows, with an integer if it ends with
a value, and all nodes are checked on the way.** -/
theorem agrees_of_wellTyped (hD : D.Lawful d) {t : Node} (h : t.WellTyped S d)
    (hall : d.Everywhere D.allows) (otherwise : Nat → Node → Run Value) (depth : Nat) :
    Agrees D.fails (visit depth d) (guarded (Checked D S d) otherwise depth d) (start {} none)
      fun v _ => ∃ Λ, D.holds Λ .integer v := by
  cases depth with
  | zero => exact .throw hD.unfinished
  | succ depth =>
    have hsound := sound_visit (S := S) hD otherwise depth
    obtain ⟨hallows, hchildren⟩ := Node.everywhere_iff.mp hall
    cases h with
    | source hprint hgs hfs hmain hinteger =>
      obtain ⟨hallG, hallF⟩ := List.forall_mem_append.mp hchildren
      refine agrees_visit hD trivial nofun ?_
      refine .bind (hsound.globals hgs hallG ?_ (between_start hprint)) fun _ s₁ ⟨w₁, hs₁⟩ => ?_
      · rintro f hf hnone
        rw [List.mem_singleton.mp hf] at hnone
        cases hnone
      refine .bind (hsound.functions hfs hallF hs₁) fun _ s₂ ⟨w₂, hs₂⟩ => ?_
      obtain ⟨id, g, hfind, -, hg⟩ := hs₂.stands.lookupFunction hmain
      refine .bind (P := fun found s' => found = (⟨id, some "main", 0⟩, g) ∧ s' = s₂)
        (.lookupFunction hfind ⟨rfl, rfl⟩) ?_
      rintro _ _ ⟨rfl, rfl⟩
      have harity := (hs₂.stands.recorded.functionAt? hmain).2.2.1
      have hnone := List.eq_nil_of_length_eq_zero harity
      refine (hsound.invoke hD hg (hnone ▸ .nil) hs₂.stands).mono fun v s₃ ⟨_, w₃, _, _, hv⟩ => ?_
      exact ⟨w₃.lists, hD.accepts hinteger hv⟩

end PlcLang.Run
