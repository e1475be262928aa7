import PlcLang.Proofs.Evaluation.Upheld

/-!
# Runs under a regime

A lawful regime is kept by whole runs: every node that is evaluated may be, in a state that keeps the
regime, and its evaluation ends as the regime allows. A run is first compared with one that is stopped
where the check of the regime fails.

* `Regime.only`, `Regime.among`: everything is allowed, but all nodes that are evaluated have a property.
* `stopped_or_eq`: runs that are stopped where a check fails.
* `Regime.passes`: whole runs.
* `passes_everywhere`: what is true of all nodes in a program is true of those that are evaluated.
-/

namespace PlcLang.Run

open Walk

namespace Follows

variable {α : Type} {R : Regime} {A : Stop → Prop} {x x' y y' : Run α} {s : State Body String}
  {Q : α → State Body String → Prop}

theorem congr (h : Follows R A x y s Q) (hx : x' s = x s) (hy : y' s = y s) : Follows R A x' y' s Q := by
  unfold Follows
  rw [hx, hy]
  exact h

/-- The walks end alike unless the first one ends with a stop that does not count. -/
theorem excused_or_eq (h : Follows R A x y s Q) : (∃ e t, x s = .error e t ∧ A e) ∨ y s = x s := by
  unfold Follows at h
  cases hx : x s with
  | ok a t =>
    rw [hx] at h
    exact .inr h.1
  | error e t =>
    rw [hx] at h
    rcases h with hA | ⟨heq, -⟩
    · exact .inl ⟨e, t, rfl, hA⟩
    · exact .inr heq

end Follows

/-- If the first walk does not end with a stop that does not count, it ends well and both end alike. -/
theorem Follows.endsWell {R : Regime} {A : Stop → Prop} {x y : Run Value} {s : State Body String}
    (h : Follows R A x y s fun v t => R.Fits t v) (hA : ∀ e t, x s = .error e t → ¬ A e) :
    y s = x s ∧ R.EndsWell (x s) := by
  unfold Follows at h
  cases hx : x s with
  | ok v t =>
    rw [hx] at h
    exact ⟨h.1, h.2.1, h.2.2.1⟩
  | error e t =>
    rw [hx] at h
    exact h.resolve_left (hA e t hx)

/-- Everything is allowed, but the nodes that are evaluated and the functions that are bound have
properties. -/
def Regime.only (good : Nat → Node → Prop) (runs : Function Body → Prop) : Regime where
  fits _ _ := True
  runs := runs
  tame _ := True
  good := good
  check _ _ _ := True
  allows _ := True

theorem Regime.only_lawful {good : Nat → Node → Prop} {runs : Function Body → Prop}
    (hpart : ∀ {d n c}, good (d + 1) n → c ∈ n.children → good d c ∧ ∀ m ∈ c.children, good d m)
    (hfunction : ∀ {d : Nat} {name : Name} {names types : List Name} {returnName : Name} {ss : List Node}
      {b : Option FunctionRef} {p : Place} {env : Env},
      good d (.function name names types returnName ss b p) →
      runs { name, parameterTypes := names.map fun _ => .any, returnType := .any, origin := p,
             body := some (.code env names ss p) })
    (hcode : ∀ {d n f}, good (d + 1) n → runs f → f.HasCode (good d)) :
    (Regime.only good runs).Lawful where
  mono _ _ := trivial
  lists _ _ := trivial
  fault _ := trivial
  attach _ _ := trivial
  nil _ := trivial
  boolean _ _ := trivial
  carryOn _ := trivial
  returned := Iff.rfl
  literal _ := trivial
  requireBoolean _ _ := .of_forall (fun _ => trivial) fun _ _ => trivial
  requireInteger _ _ := .of_forall (fun _ => trivial) fun _ _ => trivial
  operate _ _ _ := .of_forall (fun _ => trivial) fun _ _ => trivial
  equal _ _ _ := .of_forall (fun _ => trivial) fun _ _ => trivial
  textOf _ _ := .of_forall (fun _ => trivial) fun _ _ => trivial
  part := hpart
  case _ _ _ := trivial
  cutOff _ := trivial
  loop _ := trivial
  newList _ _ _ := ⟨trivial, trivial⟩
  setItem _ _ _ _ _ _ _ _ _ _ _ := trivial
  function := hfunction
  call hn _ _ hf := hcode hn hf
  main hn hf := hcode hn hf

/-- Everything is allowed, but all nodes that are evaluated have a property. -/
def Regime.among (P : Node → Prop) : Regime where
  fits _ _ := True
  runs := Function.HasCode (·.Everywhere P)
  tame _ := True
  good _ n := n.Everywhere P
  check _ _ _ := True
  allows _ := True

theorem Regime.among_lawful (P : Node → Prop) : (Regime.among P).Lawful := by
  show (Regime.only (fun _ n => n.Everywhere P) (Function.HasCode (·.Everywhere P))).Lawful
  refine only_lawful (fun hn hc => ?_) (fun hn _ _ _ _ hbody => ?_) fun _ hf => hf
  · have hchildren := (Node.everywhere_iff.mp hn).2 _ hc
    exact ⟨hchildren, (Node.everywhere_iff.mp hchildren).2⟩
  · cases hbody
    exact (Node.everywhere_iff.mp hn).2

/-- The regime under which everything is allowed. -/
def Regime.free : Regime := .among fun _ => True

theorem Regime.free_lawful : Regime.free.Lawful := Regime.among_lawful _

theorem Regime.free_good (d : Nat) (n : Node) : Regime.free.good d n := fun _ _ => trivial

theorem Regime.free_holds (s : State Body String) : Regime.free.Holds s :=
  ⟨fun _ _ _ => trivial, fun _ _ _ => trivial, fun _ _ _ _ _ _ _ _ _ _ _ _ => trivial, trivial⟩

/-- A run that is stopped where a check fails ends like the real one, unless it is stopped. -/
theorem stopped_or_eq {check : Nat → Node → State Body String → Prop} {e : Stop}
    (he : ∀ f, .fault f ≠ e) (d : Nat) (n : Node) (s : State Body String) :
    (∃ t, guarded check (fun _ _ => throw e) d n s = .error e t) ∨
      visit d n s = guarded check (fun _ _ => throw e) d n s := by
  have hupheld : Upheld .free (· = e) d (guarded check (fun _ _ => throw e) d) (visit d) := by
    clear n s
    induction d with
    | zero => exact fun n s _ hs => .throw hs trivial
    | succ d ih =>
      intro n s _ hs
      by_cases hc : check (d + 1) n s
      · have hvisit (m : Node) (t : State Body String) (v : Value) (u : State Body String)
            (hv : guarded check (fun _ _ => throw e) d m t = .ok v u) : visit d m t = .ok v u := by
          rcases (ih m t (Regime.free_good d m) (Regime.free_holds t)).excused_or_eq with ⟨e', u', he', -⟩ | heq
          · cases hv.symm.trans he'
          · exact heq.trans hv
        refine Follows.congr (x := attached n (step (guarded check (fun _ _ => throw e) d) d n))
          (.attached Regime.free_lawful he ?_) (if_pos hc) rfl
        exact step_follows Regime.free_lawful ih hvisit (.inl rfl) (Regime.free_good _ n) hs trivial
      · exact .excused (if_neg hc) rfl
  rcases (hupheld n s (Regime.free_good d n) (Regime.free_holds s)).excused_or_eq with ⟨e', t, ht, rfl⟩ | heq
  · exact .inl ⟨t, ht⟩
  · exact .inr heq

/-- If the check of the regime never fails, it is kept by every evaluation. -/
theorem upheld_visit {R : Regime} (hR : R.Lawful) (hcheck : ∀ d n s, R.check d n s) (d : Nat) :
    Upheld R (fun _ => False) d (visit d) (visit d) := by
  induction d with
  | zero => exact fun n s hn hs => .throw hs (hR.cutOff hn)
  | succ d ih =>
    exact fun n s hn hs => .attached hR (fun _ => id)
      (step_follows hR ih (fun _ _ _ _ hv => hv) (.inl rfl) hn hs (hcheck _ _ _))

/-- A run that is stopped where the check of the regime fails ends like one that is guarded by the
whole regime. -/
theorem upheld_guarded {R : Regime} (hR : R.Lawful) {e : Stop} (he : ∀ f, .fault f ≠ e)
    (otherwise : Nat → Node → Run Value) (d : Nat) :
    Upheld R (· = e) d (guarded R.check (fun _ _ => throw e) d) (guarded R.Settled otherwise d) := by
  induction d with
  | zero => exact fun n s hn hs => .throw hs (hR.cutOff hn)
  | succ d ih =>
    intro n s hn hs
    by_cases hc : R.check (d + 1) n s
    · have hvisit (m : Node) (t : State Body String) (v : Value) (u : State Body String)
          (hv : guarded R.check (fun _ _ => throw e) d m t = .ok v u) : visit d m t = .ok v u := by
        rcases stopped_or_eq he d m t with ⟨u', hu'⟩ | heq
        · cases hv.symm.trans hu'
        · exact heq.trans hv
      have hstep : Follows R (· = e) (attached n (step (guarded R.check (fun _ _ => throw e) d) d n))
          (attached n (step (guarded R.Settled otherwise d) d n)) s fun v t => R.Fits t v :=
        .attached hR he (step_follows hR ih hvisit (.inl rfl) hn hs hc)
      have hfirst : guarded R.check (fun _ _ => throw e) (d + 1) n s =
          attached n (step (guarded R.check (fun _ _ => throw e) d) d n) s := if_pos hc
      by_cases hstopped : ∃ t, guarded R.check (fun _ _ => throw e) (d + 1) n s = .error e t
      · obtain ⟨t, ht⟩ := hstopped
        exact .excused ht rfl
      · have heq := (stopped_or_eq he (d + 1) n s).resolve_left hstopped
        refine hstep.congr hfirst (if_pos ⟨hn, hs, ?_⟩)
        rw [heq, hfirst]
        exact (hstep.endsWell fun e' t ht hA => hstopped ⟨t, by rw [hfirst, ht, hA]⟩).2
    · exact .excused (if_neg hc) rfl

/-- **Runs keep a lawful regime.** If all nodes that are evaluated pass its check, the regime holds
whenever a node is evaluated and when that has ended. -/
theorem Regime.passes {R : Regime} (hR : R.Lawful) {d : Nat} {n : Node} {s : State Body String}
    (hcheck : Passes R.check d n s) (hn : R.good d n) (hs : R.Holds s) :
    Passes R.Settled d n s ∧ R.EndsWell (visit d n s) := by
  -- one of two stops is not the one with which the run may end
  obtain ⟨e, he, hne⟩ : ∃ e : Stop, (∀ f, .fault f ≠ e) ∧ ∀ t, visit d n s ≠ .error e t := by
    by_cases h : ∃ t, visit d n s = .error .malformed t
    · obtain ⟨t, ht⟩ := h
      exact ⟨.unordered, fun _ => nofun, fun u hu => nomatch ht.symm.trans hu⟩
    · exact ⟨.malformed, fun _ => nofun, fun t ht => h ⟨t, ht⟩⟩
  have hrun (otherwise : Nat → Node → Run Value) := Follows.endsWell
    (upheld_guarded hR he otherwise d n s hn hs) fun e' t ht hA => hne t (by rw [← hcheck, ht, hA])
  rw [hcheck] at hrun
  exact ⟨fun otherwise => (hrun otherwise).1, (hrun fun _ _ => pure .nil).2⟩

/-- What is true of all nodes in a program is true of all nodes that are evaluated. -/
theorem passes_everywhere {P : Node → Prop} {d : Nat} {n : Node} (hn : n.Everywhere P) :
    Passes (fun _ n _ => n.Everywhere P) d n (start {} none) := by
  have hs : (Regime.among P).Holds (start {} none) :=
    .start (Regime.among_lawful P).toStable (fun f hf _ _ _ _ hbody => nomatch hf.symm.trans hbody) trivial
  have hcheck : Passes (Regime.among P).check d n (start {} none) :=
    passes_of_forall (fun _ _ _ => trivial) d n _
  exact (Regime.passes (Regime.among_lawful P) hcheck hn hs).1.mono fun _ _ _ hsettled => hsettled.1

end PlcLang.Run
