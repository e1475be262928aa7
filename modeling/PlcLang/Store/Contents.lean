import PlcLang.Stop
import PlcLang.Store
import PlcLang.Value.Order

/-!
# Contents of values

Lists are shared and may contain themselves, so what a value contains depends on the store. A list
that contains itself has neither contents nor a text, but it can be told apart from other values. An
integer that is too long has contents, but no text.

* `Store.datum?`, `Store.text`: a value with its contents, and how it is written.
* `Store.typeOf`: the type of a value.
* `Store.equal`: equality, found out item by item and only as far as needed.
-/

namespace PlcLang

namespace Store

variable {β : Type}

/-! ## Contents -/

/-- A value with its contents, given those of the lists. -/
def datumWith (contents : ListId → Option Datum) : Value → Option Datum
  | .scalar s => some (.scalar s)
  | .list id => contents id
  | .carryOn => some .carryOn
  | .returned value => (datumWith contents value).map .returned

/-- The contents of a list whose parts are nested less than `depth` deep. -/
def listDatum (s : Store β) : (depth : Nat) → ListId → Option Datum
  | 0, _ => none
  | depth + 1, id => ((s.list id).toList.mapM (datumWith (s.listDatum depth))).map .list

/-- A value with its contents; a list that contains itself has none. -/
def datum? (s : Store β) (value : Value) : Option Datum :=
  datumWith (s.listDatum s.lists.size) value

/-- The contents, for a reader who needs them. -/
def datum (s : Store β) (value : Value) : Except Stop Datum :=
  match s.datum? value with
  | some d => .ok d
  | none => .error .unfinished

/-- A text, for a reader who needs it. -/
def written : Option String → Except Stop String
  | some text => .ok text
  | none => .error .overlong

/-- The text of a value. -/
def text (s : Store β) (value : Value) : Except Stop String := do
  written (← s.datum value).text?

/-- A value as it is named in messages. -/
def quoted (s : Store β) (value : Value) : Except Stop String := do
  written (← s.datum value).quoted?

/-! ## Types -/

/-- The type of a value, none for a list; what is no value of the language has no type at all. -/
def typeOf (s : Store β) (value : Value) : Except Stop (Option Ty) :=
  match value with
  | .scalar a =>
    match a.type? with
    | some t => .ok (some t)
    | none => do .error (.raised (.foreignValue (← s.quoted value)))
  | .list _ => .ok none
  | v => do .error (.raised (.foreignValue (← s.quoted v)))

/-! ## Equality -/

/-- Equality of values that are not both lists: a list equals no other value, and others are equal
if they have the same type and the same content. -/
def equalParts (s : Store β) (l r : Value) : Except Stop Bool :=
  match l, r with
  | .list _, _ | _, .list _ => .ok false
  | l, r => do
    let _ ← s.typeOf l
    let _ ← s.typeOf r
    match l, r with
    | .scalar a, .scalar b => .ok (a.same b)
    | _, _ => .ok false

/-- The values are pairwise equal; the first pair that is not decides. -/
def allEqual (equal : Value → Value → Except Stop Bool) :
    List Value → List Value → Except Stop Bool
  | l :: ls, r :: rs => do if ← equal l r then allEqual equal ls rs else .ok false
  | _, _ => .ok true

/-- Equality of values, if it can be found out without following lists `depth` times. Two lists are
equal if they have as many items, pairwise equal. -/
def equalWithin (s : Store β) : (depth : Nat) → Value → Value → Except Stop Bool
  | 0, _, _ => .error .unfinished
  | depth + 1, l, r =>
    match l, r with
    | .list i, .list j =>
      if (s.list i).size = (s.list j).size then
        allEqual (s.equalWithin depth) (s.list i).toList (s.list j).toList
      else .ok false
    | l, r => s.equalParts l r

/-- Equality of values. Whoever follows more pairs of lists than there are meets a pair again and
will never come to an end. -/
def equal (s : Store β) (l r : Value) : Except Stop Bool :=
  s.equalWithin (s.lists.size * s.lists.size + 1) l r

end Store

end PlcLang
