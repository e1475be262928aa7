import PlcLang.Ty
import PlcLang.Number.Decimal

/-!
# Values

A running program handles scalars and lists. Lists are shared, so a value holds the number of a
list; the contents are in the store. What a statement leaves behind is a value as well: it carries
on with the next statement, or a function returns.

* `Scalar`, `Value`: what variables hold and expressions give.
* `Datum`: a value with the contents of its lists written out.
-/

namespace PlcLang

/-- Values without parts. Doubles are no values of the language, but literals may hold them. -/
inductive Scalar where
  | nil
  | boolean (b : Bool)
  | integer (i : Int)
  | decimal (d : Decimal)
  | character (text : String)
  | string (text : String)
  | double (x : Float)
  deriving DecidableEq, Inhabited

/-- The number of a list in the store. -/
abbrev ListId := Nat

/-- What variables hold, expressions give and statements leave. -/
inductive Value where
  /-- A value without parts. -/
  | scalar (s : Scalar)
  /-- A list of the store. -/
  | list (id : ListId)
  /-- A statement is done and the next one follows. -/
  | carryOn
  /-- The function that is being called returns a value. -/
  | returned (value : Value)
  deriving DecidableEq, Inhabited

/-- A value with the contents of its lists. -/
inductive Datum where
  /-- A value without parts. -/
  | scalar (s : Scalar)
  /-- A list. -/
  | list (items : List Datum)
  /-- A statement is done and the next one follows. -/
  | carryOn
  /-- The function that is being called returns a value. -/
  | returned (value : Datum)
  deriving Inhabited

/-- The type of a scalar, none for a double. -/
def Scalar.type? : Scalar → Option Ty
  | nil => some .nil
  | boolean _ => some .boolean
  | integer _ => some .integer
  | decimal _ => some .decimal
  | character _ => some .character
  | string _ => some .string
  | double _ => none

namespace Value

/-- The absent value. -/
abbrev nil : Value := .scalar .nil

/-- A truth value. -/
abbrev boolean (b : Bool) : Value := .scalar (.boolean b)

/-- A number without fraction. -/
abbrev integer (i : Int) : Value := .scalar (.integer i)

/-- A number with a fraction. -/
abbrev decimal (d : Decimal) : Value := .scalar (.decimal d)

/-- A text of one character. -/
abbrev character (text : String) : Value := .scalar (.character text)

/-- A text. -/
abbrev string (text : String) : Value := .scalar (.string text)

end Value

end PlcLang
