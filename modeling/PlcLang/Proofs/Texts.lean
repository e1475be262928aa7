import PlcLang.Proofs.Contents

/-!
# Values without texts

A text comes to no end if a list in the value contains itself, and it is not written if an integer in
the value is too long.

* `Datum.IsOverlong`: there is such an integer in the contents.
* `Datum.text?_eq_none_iff`, `Datum.quoted?_eq_none_iff`: the contents that are not written.
* `Store.Writes`: how it ends when a value is written.
* `Store.of_text`, `Store.of_typeOf`: what is so if a value has no text, and if it has no type.
-/

namespace PlcLang

/-! ## Contents -/

/-- There is an integer that is too long. -/
inductive Datum.IsOverlong : Datum → Prop
  | integer {i} : ¬ Numeral.Fits i → IsOverlong (.scalar (.integer i))
  | item {items d} : d ∈ items → d.IsOverlong → IsOverlong (.list items)
  | returned {d} : d.IsOverlong → IsOverlong (.returned d)

namespace Datum

variable {a : Scalar} {items : List Datum} {d : Datum}

theorem isOverlong_scalar_iff : (scalar a).IsOverlong ↔ ∃ i, a = .integer i ∧ ¬ Numeral.Fits i := by
  constructor
  · rintro ⟨h⟩
    exact ⟨_, rfl, h⟩
  · rintro ⟨i, rfl, h⟩
    exact .integer h

theorem isOverlong_list_iff : (list items).IsOverlong ↔ ∃ d ∈ items, d.IsOverlong := by
  constructor
  · rintro (_ | ⟨hd, h⟩)
    exact ⟨_, hd, h⟩
  · rintro ⟨d, hd, h⟩
    exact .item hd h

theorem isOverlong_returned_iff : (returned d).IsOverlong ↔ d.IsOverlong := by
  constructor
  · rintro (_ | _ | h)
    exact h
  · exact .returned

theorem not_isOverlong_carryOn : ¬ IsOverlong .carryOn := nofun

end Datum

theorem Numeral.text?_eq_none_iff {i : Int} : text? i = none ↔ ¬ Fits i := by
  unfold text?
  split <;> simp_all

namespace Scalar

variable {a : Scalar}

theorem quoted?_eq_none_iff : a.quoted? = none ↔ ∃ i, a = .integer i ∧ ¬ Numeral.Fits i := by
  cases a <;> simp [quoted?, Numeral.text?_eq_none_iff]

theorem text?_eq_none_iff : a.text? = none ↔ ∃ i, a = .integer i ∧ ¬ Numeral.Fits i := by
  cases a <;> simp [text?, Numeral.text?_eq_none_iff]

end Scalar

namespace Datum

mutual

/-- Contents have a name in messages unless there is an integer that is too long. -/
theorem quoted?_eq_none_iff : (d : Datum) → (d.quoted? = none ↔ d.IsOverlong)
  | .scalar a => by rw [quoted?, Scalar.quoted?_eq_none_iff, isOverlong_scalar_iff]
  | .list items => by
    rw [quoted?, Option.map_eq_none_iff, quotedItems?_eq_none_iff items, isOverlong_list_iff]
  | .carryOn => iff_of_false nofun not_isOverlong_carryOn
  | .returned d => by
    rw [quoted?, Option.map_eq_none_iff, quoted?_eq_none_iff d, isOverlong_returned_iff]

theorem quotedItems?_eq_none_iff : (ds : List Datum) →
    (quotedItems? ds = none ↔ ∃ d ∈ ds, d.IsOverlong)
  | [] => iff_of_false nofun nofun
  | d :: ds => by
    rw [List.exists_mem_cons_iff, ← quoted?_eq_none_iff d, ← quotedItems?_eq_none_iff ds, quotedItems?]
    cases d.quoted? <;> cases quotedItems? ds <;> simp

end

mutual

/-- Contents have a text unless there is an integer that is too long. -/
theorem text?_eq_none_iff : (d : Datum) → (d.text? = none ↔ d.IsOverlong)
  | .scalar a => by rw [text?, Scalar.text?_eq_none_iff, isOverlong_scalar_iff]
  | .list items => by
    rw [text?, Option.map_eq_none_iff, texts?_eq_none_iff items, isOverlong_list_iff]
  | .carryOn => iff_of_false nofun not_isOverlong_carryOn
  | .returned d => by
    rw [text?, Option.map_eq_none_iff, quoted?_eq_none_iff, isOverlong_returned_iff]

theorem texts?_eq_none_iff : (ds : List Datum) → (texts? ds = none ↔ ∃ d ∈ ds, d.IsOverlong)
  | [] => iff_of_false nofun nofun
  | d :: ds => by
    rw [List.exists_mem_cons_iff, ← text?_eq_none_iff d, ← texts?_eq_none_iff ds, texts?]
    cases d.text? <;> cases texts? ds <;> simp

end

end Datum

/-! ## Values -/

namespace Store

variable {β : Type} {s : Store β} {v : Value} {F : Stop → Prop} {e : Stop}

/-- The value has contents, and there is an integer in them that is too long. -/
def IsOverlong (s : Store β) (v : Value) : Prop := ∃ d, s.datum? v = some d ∧ d.IsOverlong

theorem isOverlong_iff {d : Datum} (hd : s.datum? v = some d) : s.IsOverlong v ↔ d.IsOverlong :=
  ⟨fun ⟨_, hd', h⟩ => Option.some.inj (hd'.symm.trans hd) ▸ h, fun h => ⟨d, hd, h⟩⟩

/-- How it ends when a value is written. -/
inductive Writes (s : Store β) (v : Value) : Except Stop String → Prop
  | written {text} : s.datum? v ≠ none → ¬ s.IsOverlong v → Writes s v (.ok text)
  | unfinished : s.datum? v = none → Writes s v (.error .unfinished)
  | overlong : s.IsOverlong v → Writes s v (.error .overlong)

/-- Contents are written unless there is an integer in them that is too long. -/
theorem writes {text? : Datum → Option String} (htext : ∀ d, text? d = none ↔ d.IsOverlong) :
    s.Writes v (do written (text? (← s.datum v))) := by
  unfold datum
  cases hd : s.datum? v with
  | none => exact .unfinished hd
  | some d =>
    have hoverlong : s.IsOverlong v ↔ text? d = none := (isOverlong_iff hd).trans (htext d).symm
    have hwritten : (do written (text? (← Except.ok d)) : Except Stop String) = written (text? d) := rfl
    rw [hwritten]
    cases htext : text? d with
    | none => exact .overlong (hoverlong.mpr htext)
    | some text =>
      exact .written (hd ▸ Option.some_ne_none d) (mt hoverlong.mp (htext ▸ Option.some_ne_none text))

theorem writes_text (s : Store β) (v : Value) : s.Writes v (s.text v) := writes Datum.text?_eq_none_iff

theorem writes_quoted (s : Store β) (v : Value) : s.Writes v (s.quoted v) := writes Datum.quoted?_eq_none_iff

theorem Writes.exists_eq_ok {x : Except Stop String} (h : s.Writes v x) (hsome : s.datum? v ≠ none)
    (hshort : ¬ s.IsOverlong v) : ∃ text, x = .ok text := by
  cases h with
  | written => exact ⟨_, rfl⟩
  | unfinished hnone => exact absurd hnone hsome
  | overlong hoverlong => exact absurd hoverlong hshort

theorem Writes.of_error (h : s.Writes v (.error e)) (hunfinished : s.datum? v = none → F .unfinished)
    (hoverlong : s.IsOverlong v → F .overlong) : F e := by
  cases h with
  | unfinished h => exact hunfinished h
  | overlong h => exact hoverlong h

theorem of_text (h : s.text v = .error e) (hunfinished : s.datum? v = none → F .unfinished)
    (hoverlong : s.IsOverlong v → F .overlong) : F e :=
  (h ▸ s.writes_text v).of_error hunfinished hoverlong

theorem of_quoted (h : s.quoted v = .error e) (hunfinished : s.datum? v = none → F .unfinished)
    (hoverlong : s.IsOverlong v → F .overlong) : F e :=
  (h ▸ s.writes_quoted v).of_error hunfinished hoverlong

/-- What has no type is none of the values of the language, and is named if it can be. -/
theorem of_typeOf (h : s.typeOf v = .error e) (hunfinished : s.datum? v = none → F .unfinished)
    (hoverlong : s.IsOverlong v → F .overlong) (hforeign : ∀ shown, F (.raised (.foreignValue shown))) :
    F e := by
  have hraise (h : (do .error (.raised (.foreignValue (← s.quoted v))) : Except Stop (Option Ty)) = .error e) :
      F e := by
    cases hv : s.quoted v with
    | ok shown =>
      rw [hv] at h
      cases h
      exact hforeign shown
    | error e' =>
      rw [hv] at h
      cases h
      exact of_quoted hv hunfinished hoverlong
  unfold typeOf at h
  split at h
  · split at h
    · cases h
    · exact hraise h
  · cases h
  · exact hraise h

end Store

end PlcLang
