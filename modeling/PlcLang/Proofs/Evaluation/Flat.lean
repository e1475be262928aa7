import PlcLang.Proofs.Evaluation.Operable

/-!
# Operations on values without lists

Such a value has contents and a type, whatever the store holds, and can be written, so an operation on it
either gives something or is at fault.

* `Value.IsFlat`: there is no list in the value, and all numbers are within bounds.
* `Stop.IsFault`: the program is at fault, and this can be put into words.
* `operable_of_isFlat`: operations on such values only stop so.
-/

namespace PlcLang

/-- There is no list in the value, and all numbers in it are within bounds. -/
def Value.IsFlat : Value → Prop
  | scalar a => a.IsProper
  | list _ => False
  | carryOn => True
  | returned value => value.IsFlat

/-- The program is at fault, and this can be put into words. -/
def Stop.IsFault (e : Stop) : Prop := ∃ f, e = .fault f ∧ f.fault.IsWritable

/-- A fault without an integer in its message. -/
theorem Stop.isFault_raised {f : Fault} (h : f.integer? = none) : (Stop.raised f).IsFault :=
  ⟨_, rfl, Fault.isWritable_of_eq_none h⟩

theorem Stop.IsFault.attach {e : Located Fault} (n : Node) (h : (Stop.fault e).IsFault) :
    (Stop.fault (e.attach n)).IsFault := by
  obtain ⟨f, hf, hwritable⟩ := h
  cases hf
  exact ⟨_, rfl, (e.fault_attach n).symm ▸ hwritable⟩

namespace Store

variable {β : Type} {s : Store β} {l r v : Value} {e : Stop}

theorem exists_datum?_of_isFlat (h : v.IsFlat) : ∃ d, s.datum? v = some d ∧ ¬ d.IsOverlong := by
  induction v with
  | scalar => exact ⟨_, rfl, h.not_isOverlong⟩
  | list => exact h.elim
  | carryOn => exact ⟨_, rfl, Datum.not_isOverlong_carryOn⟩
  | returned v ih =>
    obtain ⟨d, hd, hshort⟩ := ih h
    exact ⟨.returned d, Option.map_eq_some_iff.mpr ⟨d, hd, rfl⟩, mt Datum.isOverlong_returned_iff.mp hshort⟩

theorem not_isOverlong_of_isFlat (h : v.IsFlat) : s.datum? v ≠ none ∧ ¬ s.IsOverlong v := by
  obtain ⟨d, hd, hshort⟩ := exists_datum?_of_isFlat (s := s) h
  exact ⟨hd ▸ Option.some_ne_none d, mt (isOverlong_iff hd).mp hshort⟩

theorem text_ne_error (h : v.IsFlat) : s.text v ≠ .error e := by
  intro he
  obtain ⟨hsome, hshort⟩ := not_isOverlong_of_isFlat (s := s) h
  exact of_text (F := fun _ => False) he hsome hshort

theorem isFault_of_typeOf (h : v.IsFlat) (he : s.typeOf v = .error e) : e.IsFault := by
  obtain ⟨hsome, hshort⟩ := not_isOverlong_of_isFlat (s := s) h
  exact of_typeOf he (fun h => absurd h hsome) (fun h => absurd h hshort) fun _ => Stop.isFault_raised rfl

theorem isFault_of_equal (hl : l.IsFlat) (hr : r.IsFlat) (he : s.equal l r = .error e) : e.IsFault := by
  have hparts : s.equal l r = s.equalParts l r := by
    unfold equal equalWithin
    split
    · exact hl.elim
    · rfl
  rw [hparts] at he
  unfold equalParts at he
  split at he
  · cases he
  · cases he
  · cases hs : s.typeOf l with
    | error e' =>
      rw [hs] at he
      cases he
      exact isFault_of_typeOf hl hs
    | ok =>
      cases ht : s.typeOf r with
      | error e' =>
        rw [hs, ht] at he
        cases he
        exact isFault_of_typeOf hr ht
      | ok =>
        rw [hs, ht] at he
        split at he <;> cases he

end Store

/-- Numbers have an order. -/
theorem Scalar.IsProper.unordered_eq_false {a b : Scalar} (ha : a.IsProper) (hb : b.IsProper) :
    a.unordered b = false := by
  cases a with
  | decimal c =>
    cases b with
    | decimal d => exact Decimal.compare?_isSome ha hb
    | _ => rfl
  | _ => rfl

namespace Run

variable {s : State Body String} {l r v : Value}

theorem answers_of_isFlat (h : v.IsFlat) : Answers Stop.IsFault s v where
  raised _ hinteger := by
    refine ⟨_, rfl, fun i hi => ?_⟩
    obtain rfl := hinteger i hi
    exact Word.InRange.fits h
  typeOf := Store.isFault_of_typeOf h
  text he := absurd he (Store.text_ne_error h)

/-- **Operations on values without lists** only stop because of faults. -/
theorem operable_of_isFlat (hl : l.IsFlat) (hr : r.IsFlat) : Operable Stop.IsFault s l r where
  left := answers_of_isFlat hl
  right := answers_of_isFlat hr
  equal := Store.isFault_of_equal hl hr
  unordered := by
    rintro a b rfl rfl h
    exact absurd (h.symm.trans (Scalar.IsProper.unordered_eq_false hl hr)) nofun

end Run

end PlcLang
