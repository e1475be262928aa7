import PlcLang.Proofs.Evaluation.Blame
import PlcLang.Proofs.Grammar.Places
import PlcLang.Proofs.Typing.Blame
import PlcLang.Proofs.Typing.Sites

/-!
# Which node is to blame

A fault of an analysis or of a run is attached to the innermost node that was being visited, and it is
shown with the place of that node. Only programs have no place; they are to blame for their main function.

* `Node.Blamed`: the node that a fault blames, and the text of the fault.
* `Node.exists_place`: every other node of a program has a place.
* `Node.parse?_blames`: the analyses and runs of the programs that texts have.
-/

namespace PlcLang

namespace Node

variable {β ρ γ : Type} {N : String → Prop} {W : Walker β ρ γ} {depth : Nat} {t m : Node} {s : State β ρ}
  {e : Located Fault} {l k : Int}

/-- The visit of the program `t` in the state `s` ends with the fault `e`, which blames the node `m` of
the program. It is shown with the place of this node; only the program itself has none. -/
structure Blamed (W : Walker β ρ γ) (depth : Nat) (t : Node) (s : State β ρ) (e : Located Fault) (m : Node) :
    Prop extends W.Blames depth t s e m where
  contains : t.Contains m
  /-- The text begins with the place of the node. -/
  text : (m = t ∧ m.place = .unknown ∧ e.text Fault.message = e.fault.message) ∨
    (m ≠ t ∧ ∃ l k, m.place = .known l k ∧
      e.text Fault.message = s!"(line {l}, col {k}) {e.fault.message}")

/-- Inside a program there is no other one. -/
theorem IsProgram.eq_of_contains_source {gs fs : List Node} (ht : t.IsProgram N)
    (h : t.Contains (.source gs fs)) : .source gs fs = t := by
  cases h with
  | self => rfl
  | child hn hm =>
    cases (ht.isPart hn).isChild hm with
    | optional h => rcases h with h | h <;> cases h
    | statement h | function _ h | global _ h => cases h

/-- A fault that blames a node is shown with its place. -/
theorem blamed_of_blames (ht : t.IsProgram N) (h : W.Blames depth t s e m) (hm : t.Contains m)
    (hplace : (∀ gs fs, m ≠ .source gs fs) → ∃ l k, m.place = .known l k) : t.Blamed W depth s e m := by
  refine ⟨h, hm, ?_⟩
  have hline := h.line
  have hcolumn := h.column
  by_cases hsource : ∃ gs fs, m = .source gs fs
  · obtain ⟨gs, fs, rfl⟩ := hsource
    refine .inl ⟨ht.eq_of_contains_source hm, rfl, ?_⟩
    rw [Located.text, hline]
    rfl
  · obtain ⟨l, k, hknown⟩ := hplace fun gs fs heq => hsource ⟨gs, fs, heq⟩
    refine .inr ⟨?_, l, k, hknown, ?_⟩
    · rintro rfl
      cases ht
      exact hsource ⟨_, _, rfl⟩
    · rw [Located.text, hline, hcolumn, hknown]
      rfl

/-- Every node that can be to blame has a place. -/
theorem exists_place {text : String} {t d : Node} (h : parse? text = some t)
    (hd : d = t ∨ t.analyze = .ok d) (hm : d.Contains m) (hpresent : m.isPresent = true)
    (hsource : ∀ gs fs, m ≠ .source gs fs) : ∃ l k, m.place = .known l k := by
  have hsited : d.Sited fun p kind => kind ≠ "NoneType" → kind ≠ "Source" → ∃ l k, p = .known l k := by
    have ht : t.Sited fun p kind => kind ≠ "NoneType" → kind ≠ "Source" → ∃ l k, p = .known l k := by
      intro n hn hmissing hsource
      obtain ⟨l, k, c, hplace, -⟩ := isFilled_place h hn
        (by cases n <;> first | rfl | exact absurd rfl hmissing)
        (fun gs fs heq => hsource (heq ▸ rfl))
      exact ⟨_, _, hplace⟩
    rcases hd with rfl | hd
    · exact ht
    · exact sited_of_analyze h hd ht
  refine hsited m hm ?_ ?_
  · cases m with
    | missing => cases hpresent
    | bare kind => cases kind <;> decide
    | _ => exact of_decide_eq_true rfl
  · cases m with
    | source gs fs => exact absurd rfl (hsource gs fs)
    | bare kind => cases kind <;> decide
    | _ => exact of_decide_eq_true rfl

/-- **Faults blame the innermost node.** If the analysis of the program of a text fails, or a run of it
or of what the analysis made of it, at any depth, the fault is attached to the node of the program that
was being visited last, and its text begins with the place of that node. It is the program itself just if
everything in it has been visited and it lacks a main function; for an analysis, one that returns an
integer. A call is to blame only if no function is found or two of its parameters have one name: every
call in a run that fails otherwise blames a node in an argument or in the body of the function. -/
theorem parse?_blames {text : String} (h : parse? text = some t) :
    (∀ e, t.analyze = .error (.fault e) → ∃ m, t.Blamed Analysis.walker 0 (Analysis.start {} none) e m ∧
      (m = t ↔ (∃ σ, Analysis.Prepares t σ) ∧ t.LacksIntegerMain)) ∧
    ∀ d, d = t ∨ t.analyze = .ok d → ∀ depth,
      (∀ e s, d.run depth = .error (.fault e) s → ∃ m, d.Blamed Run.walker depth (Run.start {} none) e m ∧
        (m = d ↔ (∃ s, Run.Prepares (depth - 1) d s) ∧ d.LacksMain) ∧
        ∀ name nodes type b place, m = .call name nodes type b place →
          e.fault = .undeclaredFunction name nodes.length ∨ ∃ x, e.fault = .duplicateVariable x) ∧
      Run.Passes (fun k n s => ∀ name nodes type b place, n = .call name nodes type b place →
        ∀ e, Run.walker.Fails k n s e → Run.CallFails d k n name nodes s e) depth d (Run.start {} none) := by
  have ht := isProgram_of_parse? h
  refine ⟨fun e he => ?_, fun d hd depth => ?_⟩
  · obtain ⟨m, hblames, hpresent, hcontains, hself⟩ := Analysis.blames_of_analyze ht he
    exact ⟨m, blamed_of_blames ht hblames hcontains (exists_place h (.inl rfl) hcontains hpresent), hself⟩
  · have hprogram : d.IsProgram IsIdentifier := by
      rcases hd with rfl | hd
      · exact ht
      · exact ht.of_skeleton_eq (skeleton_of_analyze h hd)
    refine ⟨fun e s he => ?_, Run.passes_callFails hprogram depth⟩
    obtain ⟨m, hblames, hpresent, hcontains, hself, hcalls⟩ := Run.blames_of_run hprogram he
    exact ⟨m, blamed_of_blames hprogram hblames hcontains (exists_place h hd hcontains hpresent), hself,
      hcalls⟩

/-- A function two parameters of which have one name, and a call of it. -/
def doubled : String :=
  "FUN f(x: Integer, x: Integer): Integer DO RETURN x; END\n" ++
  "FUN main(): Integer DO RETURN f(1, 2); END"

/-- Where the faults of the analysis and of the run are. -/
def faultPlaces (t : Node) : Option (Place × Place) :=
  match t.analyze, t.run 9 with
  | .error (.fault e), .error (.fault e') _ =>
    match e.node, e'.node with
    | some m, some m' => some (m.place, m'.place)
    | _, _ => none
  | _, _ => none

theorem parse?_blames_doubled : ∃ t e e' s m m', parse? doubled = some t ∧
    t.analyze = .error (.fault e) ∧ t.Blamed Analysis.walker 0 (Analysis.start {} none) e m ∧
    m.place = .known 1 1 ∧ t.run 9 = .error (.fault e') s ∧
    t.Blamed Run.walker 9 (Run.start {} none) e' m' ∧ m'.place = .known 2 31 := by
  have hcomputed : (parse? doubled).bind faultPlaces = some (.known 1 1, .known 2 31) := by decide +kernel
  obtain ⟨t, ht, hplaces⟩ := Option.bind_eq_some_iff.mp hcomputed
  obtain ⟨hanalysis, hrun⟩ := parse?_blames ht
  unfold faultPlaces at hplaces
  split at hplaces
  · next e e' s he he' =>
    obtain ⟨m, hm, -⟩ := hanalysis e he
    obtain ⟨m', hm', -⟩ := (hrun t (.inl rfl) 9).1 e' s he'
    rw [hm.node, hm'.node] at hplaces
    obtain ⟨hplace, hplace'⟩ := Prod.mk.inj (Option.some.inj hplaces)
    exact ⟨t, e, e', s, m, m', ht, he, hm, hplace, he', hm', hplace'⟩
  · cases hplaces

end Node

end PlcLang
