import PlcLang.Proofs.Grammar.Sound
import PlcLang.Proofs.Typing.Bindings

/-!
# The analysis decides typing

For every text that is a program, the analysis succeeds just if the program is well typed, and what
it returns is what the typing rules say, which is unique.

* `Node.Agrees`: two tables have the same bindings for a node.
* `Node.analyze_decides_wellTyped`: the result.
-/

namespace PlcLang

open Grammar Typing

namespace Node

/-- Both tables have the same binding under the reference of the node. -/
def Agrees (S S' : Store Unit) : Node → Prop
  | access _ _ _ b _ | declaration _ _ _ b _ | global _ _ _ _ b _ =>
    ∀ ref, b = some ref → S.variableAt? ref = S'.variableAt? ref
  | call _ _ _ b _ | function _ _ _ _ _ b _ =>
    ∀ ref, b = some ref → S.functionAt? ref = S'.functionAt? ref
  | _ => True

/-- What a table has, all tables with more bindings have as well. -/
theorem Bound.agrees {S₀ S S' : Store Unit} {d n : Node} (h : Bound S₀ d n) (hS : S₀.Extends S)
    (hS' : S₀.Extends S') : n.Agrees S S' := by
  cases n with
  | access | declaration | global =>
    rintro ref rfl
    obtain ⟨_, v, ⟨⟩, hv, -⟩ := h
    rw [hS.variableAt? hv, hS'.variableAt? hv]
  | call | function =>
    rintro ref rfl
    obtain ⟨_, f, ⟨⟩, hf, -⟩ := h
    rw [hS.functionAt? hf, hS'.functionAt? hf]
  | _ => trivial

/-- An accepted program is well typed, with the table that the analysis ends with. -/
theorem exists_visit_wellTyped {text : String} {t d : Node} (h : parse? text = some t)
    (hd : t.analyze = .ok d) :
    ∃ σ, Analysis.visit t (Analysis.start {} none) = .ok d σ ∧ t.WellTyped σ.store d := by
  obtain ⟨σ, hσ⟩ := analyze_eq_ok_iff_visit.mp hd
  exact ⟨σ, hσ, wellTyped_of_visit (isProgram_of_parse? h) hσ⟩

/-- **The analysis decides the typing rules.** It accepts a program just if the program is well
typed; all slots of a well typed program are filled, with bindings that the table has and nodes of
the program have created; and the tree with its types and bindings is unique. -/
theorem analyze_decides_wellTyped {text : String} {t : Node} (h : parse? text = some t) :
    (∀ d, t.analyze = .ok d ↔ ∃ S, t.WellTyped S d) ∧
      (∀ S d, t.WellTyped S d → d.Everywhere (Bound S d)) ∧
      ∀ S S' d d', t.WellTyped S d → t.WellTyped S' d' → d = d' ∧ d.Everywhere (Agrees S S') := by
  have hprogram := isProgram_of_parse? h
  refine ⟨fun d => ?_, fun S d hd => bound_of_wellTyped hd, fun S S' d d' hd hd' => ?_⟩
  · rw [analyze_eq_ok_iff_visit]
    constructor
    · rintro ⟨σ, hσ⟩
      exact ⟨σ.store, wellTyped_of_visit hprogram hσ⟩
    · rintro ⟨S, hd⟩
      obtain ⟨σ, hσ, -⟩ := visit_of_wellTyped hd
      exact ⟨σ, hσ⟩
  · -- both typings belong to the one run of the analysis
    obtain ⟨σ, hσ, hS⟩ := visit_of_wellTyped hd
    obtain ⟨σ', hσ', hS'⟩ := visit_of_wellTyped hd'
    obtain ⟨rfl, rfl⟩ := EStateM.Result.ok.inj (hσ.symm.trans hσ')
    have hbound := bound_of_wellTyped (wellTyped_of_visit hprogram hσ)
    exact ⟨rfl, fun n hn => (hbound n hn).agrees hS hS'⟩

/-- What the analysis makes of a text, if it accepts it. -/
def accepted? (text : String) : Option Node :=
  (parse? text).bind fun t => t.analyze.toOption

theorem exists_of_accepted? (text : String) (p : Node → Bool) (h : (accepted? text).any p = true) :
    ∃ t d, parse? text = some t ∧ t.analyze = .ok d ∧ p d = true := by
  obtain ⟨d, hd, hp⟩ := (Option.any_eq_true _ _).mp h
  obtain ⟨t, ht, hd⟩ := Option.bind_eq_some_iff.mp hd
  refine ⟨t, d, ht, ?_, hp⟩
  cases hr : t.analyze with
  | ok => exact congrArg Except.ok (Option.some.inj ((congrArg Except.toOption hr).symm.trans hd))
  | error => cases (congrArg Except.toOption hr).symm.trans hd

/-- A program that is accepted, and so well typed. -/
theorem wellTyped_of_analyze_small :
    ∃ t S d, parse? "VAR x : Integer = 1; FUN main() : Integer DO print(x); RETURN x; END" = some t ∧
      t.analyze = .ok d ∧ t.WellTyped S d ∧ d.Everywhere (Bound S d) := by
  obtain ⟨t, d, ht, hanalyze, -⟩ := exists_of_accepted?
    "VAR x : Integer = 1; FUN main() : Integer DO print(x); RETURN x; END" (fun _ => true) (by decide +kernel)
  obtain ⟨hdecides, hbound, -⟩ := analyze_decides_wellTyped ht
  obtain ⟨S, hS⟩ := (hdecides d).mp hanalyze
  exact ⟨t, S, d, ht, hanalyze, hS, hbound S d hS⟩

end Node

end PlcLang
