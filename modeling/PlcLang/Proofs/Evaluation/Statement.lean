import PlcLang.Proofs.Evaluation.Expression

/-!
# Runs of statements

A statement keeps its promise if its parts do: what comes after it is still well typed, and whatever
it makes its function return has the right type.

* `Sound.declare`, `Sound.assign`, `Sound.branch`, `Sound.choose`, `Sound.repeatWhile`: one lemma for
  each kind.
* `Sound.step_statement`, `Sound.step_case`: all statements and the cases of switches.
-/

namespace PlcLang.Run

open Typing

variable {D : Discipline} {S : Store Unit} {d : Node} {V G : Node → Run Value} {R : Ty} {Γ : Context}
  {φ : Frame} {w : World} {s : State Body String} {rounds : Nat}

/-! ## Variables -/

/-- The initial value of a variable has the type of the variable. -/
theorem Sound.valueOf (hD : D.Lawful d) (hsound : Sound D S d V G) {typeName : Name}
    {value value' : Node} {τ : Ty} (hi : Initial Γ typeName value value' τ)
    (hnil : typeName = some τ.name → value' = .missing → ∀ Λ, D.holds Λ τ .nil)
    (hall : value'.Everywhere D.allows) (hs : Stands D S d w s Γ) :
    Agrees D.fails (Run.valueOf V value') (Run.valueOf G value') s fun v s' =>
      Kept D S d w Γ s s' (D.holds · τ v) := by
  cases hi with
  | inferred hτ =>
    rw [Run.valueOf, Run.valueOf, if_pos hτ.isPresent', if_pos hτ.isPresent']
    exact hsound.expression hτ hall hs
  | named => exact .pure (.refl hs (hnil rfl rfl _))
  | checked _ hσ haccepts =>
    rw [Run.valueOf, Run.valueOf, if_pos hσ.isPresent', if_pos hσ.isPresent']
    exact (hsound.expression hσ hall hs).mono fun v s' hkept =>
      hkept.imp fun _ _ hv => hD.accepts haccepts hv

/-- A new variable has a value of its type. The functions of the program are not yet known, or the
active scope is not the program's. -/
theorem Sound.declare (hD : D.Lawful d) (hsound : Sound D S d V G) {v : Variable} {typeName : Name}
    {value value' : Node} (hi : Initial (φ :: Γ) typeName value value' v.type)
    (hlacks : φ.LacksVariable v.name)
    (hnil : typeName = some v.type.name → value' = .missing → ∀ Λ, D.holds Λ v.type .nil)
    (hr : (φ.withVariable v).RecordedIn S d) (hall : value'.Everywhere D.allows)
    (hbodies : Γ ≠ [] ∨ ∀ f ∈ w.functions, f.body ≠ none) (hs : Stands D S d w s (φ :: Γ)) :
    Agrees D.fails (Run.declare V v.name v.mutable value' v.origin)
      (Run.declare G v.name v.mutable value' v.origin) s fun _ s' =>
        Passed D S d w Γ s s' (φ.withVariable v) fun _ => True := by
  refine .bind (hsound.valueOf hD hi hnil hall hs) fun x s₁ ⟨henv, w₁, hw₁, hs₁, hx⟩ => ?_
  obtain ⟨w₂, hw₂, hs₂⟩ := hs₁.withVariable (v := v)
    (u := { name := v.name, mutable := v.mutable, value := x, origin := v.origin })
    ⟨rfl, rfl, rfl, hx⟩ hlacks hr (hbodies.imp_right fun h => hw₁.functions ▸ h)
  refine .bind (.defineVariable (Q := fun _ s' => Passed D S d w Γ s s' (φ.withVariable v) fun _ => True)
    (hs₁.variableNamed?_eq_none hlacks) ?_) fun _ _ hpassed => .pure hpassed
  exact ⟨henv, w₂, (hw₁.off _).trans (henv ▸ hw₂), hs₂, trivial⟩

/-- The list keeps the type of its items. -/
theorem Sound.assignItem (hD : D.Lawful d) (hI : D.Indexes) (hsound : Sound D S d V G) {name : Name}
    {held : Value} {offset offset' value value' : Node} {τ σ : Ty} {b : Option VariableRef} {p q : Place}
    (hheld : D.holds w.lists τ held) (ho : HasType Γ offset offset' .integer)
    (hv : HasType Γ value value' σ) (haccepts : τ.Accepts σ)
    (hallows : D.allows (.assignment (.access name offset' (some τ) b p) value' q))
    (hallO : offset'.Everywhere D.allows) (hallV : value'.Everywhere D.allows)
    (hs : Stands D S d w s Γ) :
    Agrees D.fails (Run.assignItem V name held offset' value')
      (Run.assignItem G name held offset' value') s fun _ s' => Kept D S d w Γ s s' fun _ => True := by
  have hfails (e : Stop) (he : e.SparesNames) : D.fails e := hI.fails he
  refine .bind (requireList_eq_list hfails) ?_
  rintro id _ ⟨rfl, rfl⟩
  refine .bind (hsound.expression ho hallO hs) fun i s₁ ⟨henv, w₁, hw₁, hs₁, _⟩ => ?_
  refine .bind_same (requireInteger_ends.imp hfails) fun i => ?_
  refine .bind (hsound.expression hv hallV hs₁) fun v s₂ ⟨henv', w₂, hw₂, hs₂, hv⟩ => ?_
  refine .bind_same (requireIndex_ends fun _ => hfails _ (.raised (.inr rfl))) fun i => .of_ok rfl ?_
  have hlist := hD.mono (hw₁.trans hw₂).lists hheld
  have hstore : StoreHolds D S d w₂ (s₂.store.setItem id i v) := hs₂.store.setItem fun ρ hρ =>
    hD.setItem hallows ho.isPresent' hlist (hD.accepts haccepts hv) hρ
  exact ⟨henv'.trans henv, w₂, hw₁.trans hw₂, ⟨hstore, hs₂.sees, hs₂.recorded⟩, trivial⟩

/-- The variable keeps its type. -/
theorem Sound.assignVariable (hD : D.Lawful d) (hsound : Sound D S d V G) {v : Variable}
    {id : ScopeId} {vs : List Variable} {value value' : Node} {σ : Ty} (hvs : w.scopes[id]? = some vs)
    (hmem : v ∈ vs) (hτ : HasType Γ value value' σ) (haccepts : v.type.Accepts σ)
    (hall : value'.Everywhere D.allows) (hs : Stands D S d w s Γ) :
    Agrees D.fails (Run.assignVariable V ⟨id, v.name⟩ value')
      (Run.assignVariable G ⟨id, v.name⟩ value') s fun _ s' => Kept D S d w Γ s s' fun _ => True := by
  refine .bind (hsound.expression hτ hall hs) fun x s₁ ⟨henv, w₁, hw₁, hs₁, hx⟩ => .of_ok rfl ?_
  have hstore := hs₁.store.setVariable (hw₁.scopes hvs) hmem (hD.accepts haccepts hx)
  exact ⟨henv, w₁, hw₁, ⟨hstore, hs₁.sees, hs₁.recorded⟩, trivial⟩

/-- The variable may be assigned to, and it keeps its type. -/
theorem Sound.assign (hD : D.Lawful d) (hsound : Sound D S d V G) {name : Name}
    {offset receiver value value' : Node} {t : Option Ty} {b : Option VariableRef} {p q : Place}
    {ref : VariableRef} {v : Variable} {τ σ : Ty} (hv : SeesVariable name Γ ref v)
    (hmutable : v.isMutable = true) (hr : HasType Γ (.access name offset t b q) receiver τ)
    (hvalue : HasType Γ value value' σ) (haccepts : τ.Accepts σ)
    (hallA : D.allows (.assignment receiver value' p)) (hallR : receiver.Everywhere D.allows)
    (hallV : value'.Everywhere D.allows) (hs : Stands D S d w s Γ) :
    ∃ offset' t' b', receiver = .access name offset' t' b' q ∧
      Agrees D.fails (Run.assign V name offset' value') (Run.assign G name offset' value') s
        fun _ s' => Kept D S d w Γ s s' fun _ => True := by
  obtain ⟨hallows, hchildren⟩ := Node.everywhere_iff.mp hallR
  have hlookup {offset' : Node}
      (h : ∀ (u : Variable) id vs, D.holds w.lists v.type u.value → w.scopes[id]? = some vs → v ∈ vs →
        Agrees D.fails
          (if offset'.isPresent then Run.assignItem V name u.value offset' value'
            else Run.assignVariable V ⟨id, v.name⟩ value')
          (if offset'.isPresent then Run.assignItem G name u.value offset' value'
            else Run.assignVariable G ⟨id, v.name⟩ value') s
          fun _ s' => Kept D S d w Γ s s' fun _ => True) :
      Agrees D.fails (Run.assign V name offset' value') (Run.assign G name offset' value') s
        fun _ s' => Kept D S d w Γ s s' fun _ => True := by
    refine .bind (lookupVariable_ends hs hv) ?_
    rintro ⟨_, u⟩ _ ⟨rfl, hu, id, vs, rfl, hvs, hmem⟩
    refine .bind_same (.require ?_ rfl) fun _ => h u id vs hu.value hvs hmem
    rw [Variable.isMutable, hu.mutable]
    exact hmutable
  cases hr with
  | reference hv' =>
    obtain rfl := hs.recorded.eq_of_seesVariable hv hv'
    refine ⟨_, _, _, rfl, hlookup fun u id vs _ hvs hmem => ?_⟩
    exact hsound.assignVariable hD hvs hmem hvalue haccepts hallV hs
  | item hv' ho =>
    obtain rfl := hs.recorded.eq_of_seesVariable hv hv'
    refine ⟨_, _, _, rfl, hlookup fun u id vs hu _ _ => ?_⟩
    rw [if_pos ho.isPresent', if_pos ho.isPresent']
    exact hsound.assignItem hD (hD.item hallows ho.isPresent') hu ho hvalue haccepts hallA
      (List.forall_mem_singleton.mp hchildren) hallV hs

/-! ## Branches and loops -/

/-- A loop keeps its promise however often its statements are run. -/
theorem Sound.repeatWhile (hD : D.Lawful d) (hsound : Sound D S d V G) {c c' : Node} {n m : ScopeId}
    {ts ts' : List Node} (hc : HasType Γ c c' .boolean)
    (ht : Checks S R (⟨n, {}⟩ :: Γ) (n + 1) ts ts' m) (hallC : c'.Everywhere D.allows)
    (hallT : ∀ a ∈ ts', a.Everywhere D.allows) (hs : Stands D S d w s Γ) :
    Agrees D.fails (Run.repeatWhile V c' ts' rounds) (Run.repeatWhile G c' ts' rounds) s
      fun v s' => Kept D S d w Γ s s' (Leaves D R v True) := by
  induction rounds generalizing w s with
  | zero => exact .throw hD.unfinished
  | succ rounds ih =>
    refine .bind (hsound.expression hc hallC hs) fun b s₁ ⟨henv, w₁, hw₁, hs₁, hb⟩ => ?_
    refine .bind_same (hD.requireBoolean hb) fun b => ?_
    cases b with
    | false => exact .pure ⟨henv, w₁, hw₁, hs₁, leaves_carryOn trivial⟩
    | true =>
      refine .bind (hsound.inBlock ht hallT hs₁) ?_
      intro v s₂ hkept
      obtain ⟨henv', w₂, hw₂, hs₂, hleaves⟩ := hkept.trans henv hw₁
      rcases hleaves with ⟨r, rfl, hr⟩ | ⟨hv, -⟩
      · exact .pure ⟨henv', w₂, hw₂, hs₂, .inl ⟨r, rfl, hr⟩⟩
      · have hnext := (ih hs₂).mono fun v s₃ hkept => hkept.trans henv' hw₂
        cases v with
        | returned r => exact absurd rfl (hv r)
        | scalar | list | carryOn => exact hnext

/-- One of the cases of a switch is run, in the end the last one. -/
theorem Sound.choose (hD : D.Lawful d) (hsound : Sound D S d V G) {ks : List TypedCase}
    {default : TypedCase} {τ : Ty} {condition : Value} {otherwise : Option Node}
    (hcondition : D.holds w.lists τ condition) (hks : ∀ k ∈ ks, ∃ σ, HasType Γ k.value k.value' σ)
    (hdefault : default.value' = .missing)
    (hblocks : ∀ k ∈ ks ++ [default],
      Checks S R (⟨k.first, {}⟩ :: Γ) (k.first + 1) k.block k.block' k.next)
    (hall : ∀ k ∈ ks ++ [default], k.filled.Everywhere D.allows) (hs : Stands D S d w s Γ) :
    Agrees D.fails
      (Run.choose V condition otherwise ((ks ++ [default]).map TypedCase.filled))
      (Run.choose G condition otherwise ((ks ++ [default]).map TypedCase.filled)) s
      fun v s' => Kept D S d w Γ s s' (Leaves D R v True) := by
  induction ks generalizing w s with
  | nil =>
    have hpart : default.filled.caseValue? = some .missing := congrArg some hdefault
    refine .bind (P := fun v s' => v = .missing ∧ s' = s) (.part hpart ⟨rfl, rfl⟩) ?_
    rintro _ _ ⟨rfl, rfl⟩
    have hmem : default ∈ [] ++ [default] := List.mem_append_right _ List.mem_cons_self
    exact hsound.case (hblocks default hmem) (hall default hmem) hs
  | cons k ks ih =>
    obtain ⟨hk, hks⟩ := List.forall_mem_cons.mp hks
    obtain ⟨hblock, hblocks⟩ := List.forall_mem_cons.mp hblocks
    obtain ⟨hallK, hall⟩ := List.forall_mem_cons.mp hall
    obtain ⟨σ, hσ⟩ := hk
    refine .bind (P := fun v s' => v = k.value' ∧ s' = s) (.part rfl ⟨rfl, rfl⟩) ?_
    rintro _ _ ⟨rfl, rfl⟩
    rw [if_pos hσ.isPresent', if_pos hσ.isPresent']
    have hallV := (Node.everywhere_iff.mp hallK).2 k.value' List.mem_cons_self
    refine .bind (hsound.expression hσ hallV hs) fun v s₁ ⟨henv, w₁, hw₁, hs₁, hv⟩ => ?_
    have hcondition' := hD.mono hw₁.lists hcondition
    refine .bind_same (hD.equal hcondition' hv) fun b => ?_
    cases b with
    | true => exact (hsound.case hblock hallK hs₁).mono fun v s₂ hkept => hkept.trans henv hw₁
    | false => exact (ih hcondition' hks hblocks hall hs₁).mono fun v s₂ hkept => hkept.trans henv hw₁

/-! ## All statements -/

/-- The names in a statement mean what the analysis says. -/
theorem resolves_of_checks (hs : Stands D S d w s Γ) {n m : ScopeId} {a a' : Node}
    {ss ss' : List Node} (hc : Checks S R Γ n (a :: ss) (a' :: ss') m) :
    Node.Resolves S d s a' := by
  cases hc with
  | assignment _ _ hr =>
    have hreceiver := resolves_of_hasType hs hr
    cases hr with
    | reference | item => exact hreceiver
  | _ => trivial

/-- After most statements the active scope is what it was. -/
theorem statement_of_kept {x y : Run Value} {n m : ScopeId} {a' : Node} {ss ss' : List Node} {p : Prop}
    (h : Agrees D.fails x y s fun v s' => Kept D S d w (φ :: Γ) s s' (Leaves D R v p))
    (ha : p → ∀ e p, a' ≠ .returning e p) (hc : Checks S R (φ :: Γ) n ss ss' m) :
    Agrees D.fails x y s fun v s' => ∃ ψ, Passed D S d w Γ s s' ψ
      (Leaves D R v ((∀ e p, a' ≠ .returning e p) ∧ ∃ k, Checks S R (ψ :: Γ) k ss ss' m)) :=
  h.mono fun _ _ hkept =>
    ⟨φ, hkept.passed.imp fun _ hleaves => hleaves.imp fun hp => ⟨ha hp, n, hc⟩⟩

/-- **A statement keeps its promise if its parts do.** -/
theorem Sound.step_statement (hD : D.Lawful d) (hsound : Sound D S d V G) (hΓ : Γ ≠ [])
    {n m : ScopeId} {a a' : Node} {ss ss' : List Node}
    (hc : Checks S R (φ :: Γ) n (a :: ss) (a' :: ss') m) (hall : a'.Everywhere D.allows)
    (hs : Stands D S d w s (φ :: Γ)) :
    Agrees D.fails (step V rounds a') (step G rounds a') s fun v s' => ∃ ψ, Passed D S d w Γ s s' ψ
      (Leaves D R v ((∀ e p, a' ≠ .returning e p) ∧ ∃ k, Checks S R (ψ :: Γ) k ss ss' m)) := by
  obtain ⟨hallows, hchildren⟩ := Node.everywhere_iff.mp hall
  cases hc with
  | expressionStatement _ he hrest =>
    refine statement_of_kept (p := True) (.bind (hsound.expression he
      (List.forall_mem_singleton.mp hchildren) hs) fun v s₁ hkept => ?_) (fun _ => nofun) hrest
    exact .pure (hkept.imp fun _ _ _ => leaves_carryOn trivial)
  | @declaration _ _ _ name typeName _ value' _ p τ _ _ _ hi hlacks hat hrest =>
    have hr := (hs.recorded φ List.mem_cons_self).withVariable (v := { name, type := τ, origin := p })
      hat (hD.contains hallows) ⟨rfl, rfl, rfl⟩
    have hnil (ht : typeName = some τ.name) (hv : value' = .missing) : ∀ Λ, D.holds Λ τ .nil := by
      subst ht hv
      exact hD.declaration hallows
    have hdeclare := hsound.declare hD hi hlacks hnil hr (List.forall_mem_singleton.mp hchildren)
      (.inl hΓ) hs
    exact .bind hdeclare fun _ s₁ hpassed =>
      .pure ⟨_, hpassed.imp fun _ _ => leaves_carryOn ⟨nofun, _, hrest⟩⟩
  | assignment hv hmutable hr hvalue haccepts hrest =>
    obtain ⟨hallR, hchildren⟩ := List.forall_mem_cons.mp hchildren
    obtain ⟨offset, t, b, rfl, hassign⟩ := hsound.assign hD hv hmutable hr hvalue haccepts hallows hallR
      (List.forall_mem_singleton.mp hchildren) hs
    refine statement_of_kept (p := True) (.bind hassign fun _ s₁ hkept => ?_) (fun _ => nofun) hrest
    exact .pure (hkept.imp fun _ _ _ => leaves_carryOn trivial)
  | conditional he hthen helse hrest =>
    obtain ⟨hallC, hchildren⟩ := List.forall_mem_cons.mp hchildren
    obtain ⟨hallT, hallE⟩ := List.forall_mem_append.mp hchildren
    refine statement_of_kept (p := True) (.bind (hsound.expression he hallC hs)
      fun b s₁ ⟨henv, w₁, hw₁, hs₁, hb⟩ => .bind_same (hD.requireBoolean hb) fun b => ?_)
      (fun _ => nofun) hrest
    cases b with
    | true => exact (hsound.inBlock hthen hallT hs₁).mono fun v s₂ hkept => hkept.trans henv hw₁
    | false => exact (hsound.inBlock helse hallE hs₁).mono fun v s₂ hkept => hkept.trans henv hw₁
  | switch ks default he hks _ hdefault hblocks _ hrest =>
    obtain ⟨hallC, hchildren⟩ := List.forall_mem_cons.mp hchildren
    refine statement_of_kept (p := True) (.bind (hsound.expression he hallC hs)
      fun x s₁ ⟨henv, w₁, hw₁, hs₁, hx⟩ => ?_) (fun _ => nofun) hrest
    refine (hsound.choose hD hx (fun k hk => (hks k hk).imp fun _ h => h.1) hdefault hblocks
      (List.forall_mem_map.mp hchildren) hs₁).mono fun v s₂ hkept => ?_
    exact hkept.trans henv hw₁
  | whileLoop he ht hrest =>
    obtain ⟨hallC, hallT⟩ := List.forall_mem_cons.mp hchildren
    exact statement_of_kept (hsound.repeatWhile hD he ht hallC hallT hs) (fun _ => nofun) hrest
  | returning he haccepts hrest =>
    refine .bind (hsound.expression he (List.forall_mem_singleton.mp hchildren) hs)
      fun v s₁ hkept => ?_
    exact .pure ⟨φ, hkept.passed.imp fun _ hv => .inl ⟨v, rfl, hD.accepts haccepts hv⟩⟩

/-- A case keeps its promise if its statements do. -/
theorem Sound.step_case (hsound : Sound D S d V G) {k : TypedCase}
    (hc : Checks S R (⟨k.first, {}⟩ :: Γ) (k.first + 1) k.block k.block' k.next)
    (hall : k.filled.Everywhere D.allows) (hs : Stands D S d w s Γ) :
    Agrees D.fails (step V rounds k.filled) (step G rounds k.filled) s fun v s' =>
      Kept D S d w Γ s s' (Leaves D R v True) :=
  hsound.inBlock hc (List.forall_mem_cons.mp (Node.everywhere_iff.mp hall).2).2 hs

end PlcLang.Run
