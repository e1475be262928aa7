/-!
# Types

The built-in types and the relation that says which value may stand where a type is expected.

* `Ty.Accepts`: everything is accepted by `Any`, the five ordered types by `Comparable`, and every
  type accepts itself.
-/

namespace PlcLang

/-- The built-in types. -/
inductive Ty where
  | nil
  | any
  | comparable
  | boolean
  | integer
  | decimal
  | character
  | string
  deriving DecidableEq, Inhabited

namespace Ty

/-- All types. -/
def all : List Ty := [nil, any, comparable, boolean, integer, decimal, character, string]

/-- The name by which a program refers to the type. -/
def name : Ty → String
  | nil => "Nil"
  | any => "Any"
  | comparable => "Comparable"
  | boolean => "Boolean"
  | integer => "Integer"
  | decimal => "Decimal"
  | character => "Character"
  | string => "String"

/-- The type of the given name. -/
def ofName? (name : String) : Option Ty := all.find? (·.name = name)

/-- The values of the type are ordered. -/
def isOrdered : Ty → Bool
  | boolean | integer | decimal | character | string => true
  | _ => false

/-- The values of the type are numbers. -/
def isNumeric : Ty → Bool
  | integer | decimal => true
  | _ => false

/-- A value of type `source` may stand where `target` is expected. -/
def Accepts (target source : Ty) : Prop :=
  target = any ∨ target = source ∨ target = comparable ∧ source.isOrdered = true

instance (target source : Ty) : Decidable (target.Accepts source) :=
  inferInstanceAs (Decidable (_ ∨ _))

/-! ## Laws -/

theorem ofName?_name (t : Ty) : ofName? t.name = some t := by
  cases t <;> rfl

theorem name_of_ofName? {s : String} {t : Ty} (h : ofName? s = some t) : t.name = s := by
  simpa using List.find?_some h

theorem name_injective {s t : Ty} (h : s.name = t.name) : s = t := by
  have hs := ofName?_name s
  rw [h, ofName?_name] at hs
  exact (Option.some.inj hs).symm

theorem Accepts.refl (t : Ty) : t.Accepts t := .inr (.inl rfl)

theorem Accepts.trans {r s t : Ty} (h₁ : r.Accepts s) (h₂ : s.Accepts t) : r.Accepts t := by
  cases r <;> cases s <;> cases t <;> simp_all [Accepts, isOrdered]

end Ty

end PlcLang
