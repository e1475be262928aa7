import PlcLang.Proofs.Evaluation.Settled

/-!
# Runs of greater depth

A run of greater depth ends like one of smaller depth, unless that one was cut off. So a program has
at most one result, whatever the depth.

* `Run.cutOff_or_eq`: evaluations of two depths.
* `Run.terminates_or_not`: what happens at all depths.
-/

namespace PlcLang

namespace Run

variable {depth depth' : Nat}

/-- Nothing is asked of an evaluation of greater depth, but that it ends like the other one. -/
theorem upheld_deeper (hdepth : depth ≤ depth') :
    Upheld .free (· = .unfinished) depth (visit depth) (visit depth') := by
  induction depth generalizing depth' with
  | zero => exact fun _ _ _ _ => .excused rfl rfl
  | succ depth ih =>
    obtain ⟨depth', rfl⟩ := Nat.exists_eq_add_of_le' hdepth
    have hle : depth ≤ depth' + depth := Nat.le_add_left _ _
    exact fun n s _ hs => .attached Regime.free_lawful (fun _ => nofun)
      (step_follows Regime.free_lawful (ih hle) (fun _ _ _ _ hv => hv) (.inr ⟨rfl, hle⟩)
        (Regime.free_good _ n) hs trivial)

/-- **An evaluation of greater depth ends like one of smaller depth, unless that one was cut off.** -/
theorem cutOff_or_eq (hdepth : depth ≤ depth') (n : Node) (s : State Body String) :
    (∃ s', visit depth n s = .error .unfinished s') ∨ visit depth' n s = visit depth n s := by
  rcases (upheld_deeper hdepth n s (Regime.free_good depth n) (Regime.free_holds s)).excused_or_eq with
    ⟨e, t, ht, rfl⟩ | heq
  · exact .inl ⟨t, ht⟩
  · exact .inr heq

/-- Either the evaluation is cut off at every depth, or there is one result that it has at every depth
from some depth on. -/
theorem terminates_or_not (n : Node) (s : State Body String) :
    (∀ depth, ∃ s', visit depth n s = .error .unfinished s') ∨
      ∃ depth, (∀ s', visit depth n s ≠ .error .unfinished s') ∧
        ∀ depth', depth ≤ depth' → visit depth' n s = visit depth n s := by
  by_cases h : ∀ depth, ∃ s', visit depth n s = .error .unfinished s'
  · exact .inl h
  · obtain ⟨depth, hdepth⟩ := Classical.not_forall.mp h
    have hnot := not_exists.mp hdepth
    refine .inr ⟨depth, hnot, fun depth' hle => ?_⟩
    exact (cutOff_or_eq hle n s).resolve_left fun ⟨s', hs'⟩ => hnot s' hs'

end Run

end PlcLang
