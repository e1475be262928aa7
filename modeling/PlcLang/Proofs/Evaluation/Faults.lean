import PlcLang.Evaluation.Operation
import PlcLang.Proofs.Evaluation.Guard
import PlcLang.Proofs.Store
import PlcLang.Proofs.Texts

/-!
# Faults of values

What is found out about values can only fail with faults about types and ranges: they have nothing to do
with names.

* `Stop.category?`: the kind of a stop.
* `Stop.SparesNames`: the stops that are not about names or constants.
* `Stop.IsWritable`: no integer that is too long is to be written.
* `Store.sparesNames_of_typeOf`, …: what is found out about values.
-/

namespace PlcLang

/-- The kind of fault, if it is one. -/
def Stop.category? : Stop → Option Category
  | .fault e => some e.fault.category
  | _ => none

theorem Located.fault_attach (e : Located Fault) (node : Node) : (e.attach node).fault = e.fault := by
  unfold Located.attach
  split
  · rfl
  · rfl
  · split <;> rfl

theorem Stop.category?_attach (e : Located Fault) (node : Node) :
    (Stop.fault (e.attach node)).category? = (Stop.fault e).category? := by
  rw [category?, category?, Located.fault_attach]

/-- It is not a fault about a name or a constant. -/
def Stop.SparesNames (e : Stop) : Prop :=
  e.category? ≠ some .binding ∧ e.category? ≠ some .mutability

namespace Stop.SparesNames

theorem raised {f : Fault} (hf : f.category = .type ∨ f.category = .range) :
    (Stop.raised f).SparesNames := by
  rcases hf with hf | hf <;> simp [SparesNames, category?, Stop.raised, hf]

theorem unfinished : Stop.unfinished.SparesNames := ⟨nofun, nofun⟩

theorem malformed : Stop.malformed.SparesNames := ⟨nofun, nofun⟩

theorem unordered : Stop.unordered.SparesNames := ⟨nofun, nofun⟩

theorem overlong : Stop.overlong.SparesNames := ⟨nofun, nofun⟩

theorem attach {e : Located Fault} (n : Node) (h : (Stop.fault e).SparesNames) :
    (Stop.fault (e.attach n)).SparesNames := by
  rwa [SparesNames, category?_attach]

end Stop.SparesNames

/-- No integer is too long to be written, not even in the message of a fault. -/
def Stop.IsWritable : Stop → Prop
  | .fault e => e.fault.IsWritable
  | .overlong => False
  | .malformed | .unordered | .unfinished => True

theorem Stop.IsWritable.attach {e : Located Fault} (n : Node) (h : (Stop.fault e).IsWritable) :
    (Stop.fault (e.attach n)).IsWritable := by
  rwa [IsWritable, Located.fault_attach]

/-- A message without an integer can be written. -/
theorem Fault.isWritable_of_eq_none {f : Fault} (h : f.integer? = none) : f.IsWritable := by
  rw [IsWritable, h]
  exact nofun

/-! ## Stores -/

namespace Store

variable {β : Type} {s : Store β} {e : Stop}

theorem sparesNames_of_text {v : Value} (h : s.text v = .error e) : e.SparesNames :=
  of_text h (fun _ => .unfinished) fun _ => .overlong

theorem sparesNames_of_typeOf {v : Value} (h : s.typeOf v = .error e) : e.SparesNames :=
  of_typeOf h (fun _ => .unfinished) (fun _ => .overlong) fun _ => .raised (.inl rfl)

/-! ### Equality -/

section

variable {F : Stop → Prop} {P : Value → Prop} {l r : Value}

theorem of_equalParts (htype : ∀ v e, P v → s.typeOf v = .error e → F e) (hl : P l) (hr : P r)
    (h : s.equalParts l r = .error e) : F e := by
  unfold equalParts at h
  split at h
  · cases h
  · cases h
  · cases htl : s.typeOf l with
    | error e' =>
      rw [htl] at h
      cases h
      exact htype l _ hl htl
    | ok a =>
      cases htr : s.typeOf r with
      | error e' =>
        rw [htl, htr] at h
        cases h
        exact htype r _ hr htr
      | ok b =>
        rw [htl, htr] at h
        split at h <;> cases h

/-- Equality is cut off, or else it fails where it asks for the type of a value. -/
theorem of_equalWithin (hcutOff : F .unfinished) (htype : ∀ v e, P v → s.typeOf v = .error e → F e)
    (hitems : ∀ id, ∀ v ∈ s.list id, P v) {depth : Nat} (hl : P l) (hr : P r)
    (h : s.equalWithin depth l r = .error e) : F e := by
  induction depth generalizing l r e with
  | zero =>
    cases h
    exact hcutOff
  | succ depth ih =>
    unfold equalWithin at h
    split at h
    next i j =>
      split at h
      · obtain ⟨v, hv, w, hw, he⟩ := exists_of_allEqual_eq_error h
        exact ih (hitems i v (Array.mem_toList_iff.mp hv)) (hitems j w (Array.mem_toList_iff.mp hw)) he
      · cases h
    next => exact of_equalParts htype hl hr h

end

theorem sparesNames_of_equalWithin {depth : Nat} {l r : Value}
    (h : s.equalWithin depth l r = .error e) : e.SparesNames :=
  of_equalWithin (P := fun _ => True) .unfinished (fun _ _ _ => sparesNames_of_typeOf)
    (fun _ _ _ => trivial) trivial trivial h

end Store

end PlcLang
