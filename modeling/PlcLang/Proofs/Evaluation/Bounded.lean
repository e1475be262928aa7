import PlcLang.Proofs.Evaluation.Operands
import PlcLang.Proofs.Evaluation.Settled

/-!
# Numbers within bounds

Integers that fit 32 bits and decimals that are finite, wherever a state keeps values.

* `Value.IsBounded`, `Datum.IsBounded`: values and their contents.
* `State.IsBounded`: the variables of all scopes and the items of all lists.
* `State.Carries`: the same, and the code of functions has no other literals.
* `EndedIn`: what holds of the state and of the result when a walk has ended.
-/

namespace PlcLang

/-! ## Values -/

/-- All numbers in the value are within bounds; those in a list are in the store. -/
def Value.IsBounded : Value → Prop
  | scalar a => a.IsProper
  | list _ | carryOn => True
  | returned value => value.IsBounded

/-- All numbers in the contents of a value are within bounds. -/
inductive Datum.IsBounded : Datum → Prop
  | scalar {a} : a.IsProper → IsBounded (.scalar a)
  | list {items} : (∀ d ∈ items, IsBounded d) → IsBounded (.list items)
  | carryOn : IsBounded .carryOn
  | returned {d} : d.IsBounded → IsBounded (.returned d)

/-- Contents within bounds can be written. -/
theorem Datum.IsBounded.not_isOverlong {d : Datum} (h : d.IsBounded) : ¬ d.IsOverlong := by
  intro hoverlong
  induction hoverlong with
  | integer hi =>
    cases h with
    | scalar h => exact hi (Word.InRange.fits h)
  | item hd _ ih =>
    cases h with
    | list h => exact ih (h _ hd)
  | returned _ ih =>
    cases h with
    | returned h => exact ih h

theorem Ty.Admits.isBounded {τ : Ty} {v : Value} (h : τ.Admits v) : v.IsBounded := by
  obtain ⟨a, _, rfl, -, -, ha⟩ := h
  exact ha

namespace Store

variable {β : Type} {s : Store β}

theorem isBounded_of_datumWith {contents : ListId → Option Datum}
    (hcontents : ∀ id d, contents id = some d → d.IsBounded) {v : Value} (hv : v.IsBounded) {d : Datum}
    (h : datumWith contents v = some d) : d.IsBounded := by
  induction v generalizing d with
  | scalar a =>
    cases h
    exact .scalar hv
  | list id => exact hcontents id d h
  | carryOn =>
    cases h
    exact .carryOn
  | returned v ih =>
    obtain ⟨d, hd, rfl⟩ := Option.map_eq_some_iff.mp h
    exact .returned (ih hv hd)

theorem isBounded_of_mapM {contents : Value → Option Datum} {vs : List Value} {ds : List Datum}
    (hvs : ∀ v ∈ vs, ∀ d, contents v = some d → d.IsBounded) (h : vs.mapM contents = some ds) :
    ∀ d ∈ ds, d.IsBounded := by
  induction vs generalizing ds with
  | nil =>
    cases h
    exact List.forall_mem_nil _
  | cons v vs ih =>
    obtain ⟨hv, hvs⟩ := List.forall_mem_cons.mp hvs
    simp only [List.mapM_cons, Option.bind_eq_bind, Option.bind_eq_some_iff, Option.pure_def,
      Option.some.injEq] at h
    obtain ⟨d, hd, ds, hds, rfl⟩ := h
    exact List.forall_mem_cons.mpr ⟨hv d hd, ih hvs hds⟩

/-- Contents are within bounds if the items of all lists are. -/
theorem isBounded_of_datum? (hs : ∀ id, ∀ v ∈ s.list id, v.IsBounded) {v : Value} (hv : v.IsBounded)
    {d : Datum} (h : s.datum? v = some d) : d.IsBounded := by
  have hlist (depth : Nat) : ∀ id d, s.listDatum depth id = some d → d.IsBounded := by
    induction depth with
    | zero =>
      intro id d h
      cases h
    | succ depth ih =>
      intro id d h
      obtain ⟨ds, hds, rfl⟩ := Option.map_eq_some_iff.mp h
      refine .list (isBounded_of_mapM (fun v hv d hd => ?_) hds)
      exact isBounded_of_datumWith ih (hs id v (Array.mem_toList_iff.mp hv)) hd
  exact isBounded_of_datumWith (hlist _) hv h

theorem not_isOverlong_of_isBounded (hs : ∀ id, ∀ v ∈ s.list id, v.IsBounded) {v : Value}
    (hv : v.IsBounded) : ¬ s.IsOverlong v :=
  fun ⟨_, hd, h⟩ => (isBounded_of_datum? hs hv hd).not_isOverlong h

/-- Values within bounds have texts as soon as they have contents. -/
theorem exists_text_of_isBounded (hs : ∀ id, ∀ v ∈ s.list id, v.IsBounded) {v : Value}
    (hv : v.IsBounded) (hsome : s.datum? v ≠ none) : ∃ text, s.text v = .ok text :=
  (s.writes_text v).exists_eq_ok hsome (not_isOverlong_of_isBounded hs hv)

end Store

/-! ## States -/

/-- All numbers that variables or lists hold are within bounds, visible or not. -/
structure State.IsBounded (s : State Body String) : Prop where
  /-- The variables of all scopes. -/
  held (id : ScopeId) : ∀ v ∈ (s.store.scope id).variables, v.value.IsBounded
  /-- The items of all lists. -/
  items (id : ListId) : ∀ v ∈ s.store.list id, v.IsBounded

/-- All numbers are within bounds, and the statements of all functions have a property. -/
structure State.Carries (good : Node → Prop) (s : State Body String) : Prop where
  isBounded : s.IsBounded
  /-- The functions of all scopes. -/
  functions (id : ScopeId) : ∀ f ∈ (s.store.scope id).functions, f.HasCode good

/-! ## Ends -/

section

variable {β ρ α : Type}

/-- A walk has ended in a state that satisfies `I`, with a result that satisfies `P` if it has one. -/
def EndedIn (I : State β ρ → Prop) (P : α → Prop) : EStateM.Result Stop (State β ρ) α → Prop
  | .ok a s => P a ∧ I s
  | .error _ s => I s

theorem EndedIn.imp {I J : State β ρ → Prop} {P Q : α → Prop}
    {result : EStateM.Result Stop (State β ρ) α} (h : EndedIn I P result) (hI : ∀ s, I s → J s)
    (hP : ∀ a, P a → Q a) : EndedIn J Q result := by
  cases result with
  | ok a s => exact ⟨hP a h.1, hI s h.2⟩
  | error e s => exact hI s h

end

end PlcLang
