import PlcLang.Proofs.Evaluation.Program
import PlcLang.Proofs.Typing.Decision

/-!
# Names in a run

Names mean in a run what they mean to the analysis, in every program that it accepts.

* `Run.nameDiscipline`: nothing is asked of values.
* `Node.run_resolves_names`: the result.
-/

namespace PlcLang

open Typing

namespace Run

/-- The discipline that asks only for names that are found and constants that are kept. -/
def nameDiscipline (d : Node) : Discipline where
  holds _ _ _ := True
  fails := Stop.SparesNames
  allows := d.Contains

/-- Every program can be run under this discipline. -/
theorem nameDiscipline_lawful (d : Node) : (nameDiscipline d).Lawful d where
  contains h := h
  unfinished := .unfinished
  attach n _ h := h.attach n
  mono _ _ := trivial
  accepts _ _ := trivial
  literal _ := trivial
  requireBoolean _ := requireBoolean_ends
  operate _ _ _ _ _ _ _ := operate_ends.mono fun _ _ h => ⟨trivial, h⟩
  equal _ _ := equal_ends
  textOf _ := textOf_ends
  declaration _ _ := trivial
  global _ _ := trivial
  complete _ _ := .inr fun _ => trivial
  list _ := trivial
  item _ _ := ⟨fun h => h, fun _ _ => trivial⟩
  setItem _ _ _ _ _ := trivial

end Run

namespace Node

/-- The binders of a program stand at different places in its text. -/
theorem nodup_binderPlaces {S : Store Unit} {text : String} {t d : Node}
    (h : parse? text = some t) (hwell : t.WellTyped S d) : d.binderPlaces.Nodup := by
  obtain ⟨ls, rest, hreads, -, hspells⟩ := spells_of_ofGlyphs (parse?_eq_some_iff.mp h)
  rw [← binderPlaces_of_wellTyped hwell]
  exact hspells.bindersAmong.nodup hreads.nodup_places

/-- In a well typed program, names mean what the analysis has found. -/
theorem passes_resolves {S : Store Unit} {t d : Node} (h : t.WellTyped S d) (depth : Nat) :
    Run.Passes (fun _ n s => Resolves S d s n) depth d (Run.start {} none) := by
  have hrun (otherwise : Nat → Node → Run Value) :=
    Run.agrees_of_wellTyped (Run.nameDiscipline_lawful d) h (fun _ hn => hn) otherwise depth
  exact Run.Passes.mono (fun otherwise => (hrun otherwise).1) fun _ _ _ hc => hc.1

/-- **Names mean in a run what they mean to the analysis.** Wherever a run of an accepted program looks
a name up, it finds what the binder has made that the analysis has found, or both find the built-in
function; the binders of the program stand at different places. The run never fails for lack of a
binding or because of a constant. -/
theorem run_resolves_names {text : String} {t d : Node} (h : parse? text = some t)
    (hd : t.analyze = .ok d) :
    d.binderPlaces.Nodup ∧ ∃ σ, Analysis.visit t (Analysis.start {} none) = .ok d σ ∧
      ∀ depth, Run.Passes (fun _ n s => Resolves σ.store d s n) depth d (Run.start {} none) ∧
        ∀ e s, d.run depth = .error e s →
          e.category? ≠ some .binding ∧ e.category? ≠ some .mutability := by
  obtain ⟨σ, hσ, hwell⟩ := exists_visit_wellTyped h hd
  refine ⟨nodup_binderPlaces h hwell, σ, hσ, fun depth => ⟨passes_resolves hwell depth, ?_⟩⟩
  intro e s he
  have hends := (Run.agrees_of_wellTyped (Run.nameDiscipline_lawful d) hwell (fun _ hn => hn)
    (fun _ _ => pure .nil) depth).2
  rw [show Run.visit depth d (Run.start {} none) = .error e s from he] at hends
  exact hends

/-- A program with a shadowed variable and a call. -/
def shadowing : String :=
  "VAR x: Integer = 1; FUN f(y: Integer): Integer DO LET x = y; RETURN x; END " ++
  "FUN main(): Integer DO RETURN f(x); END"

theorem run_resolves_names_shadowing :
    ∃ (t d : Node) (σ : State Unit (Option Ty)), parse? shadowing = some t ∧ t.analyze = .ok d ∧
      d.binderPlaces.Nodup ∧ ∀ depth,
        Run.Passes (fun _ n s => Resolves σ.store d s n) depth d (Run.start {} none) := by
  obtain ⟨t, d, ht, hd, -⟩ := exists_of_accepted? shadowing (fun _ => true)
    (by decide +kernel)
  obtain ⟨hplaces, σ, -, hrun⟩ := run_resolves_names ht hd
  exact ⟨t, d, σ, ht, hd, hplaces, fun depth => (hrun depth).1⟩

end Node

end PlcLang
