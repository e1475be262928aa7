import PlcLang.Value
import PlcLang.Number.Double
import PlcLang.Number.Numeral
import PlcLang.Text.Quoted

/-!
# Texts of values

An integer that is too long has no text, and neither has a list that holds one.

* `Datum.text?`: what `print` and string concatenation write.
* `Datum.quoted?`: how a value is named in messages.
* `Datum.shown?`: how the result of a program is reported.
-/

namespace PlcLang

/-- A decimal as it is named in messages. -/
def Decimal.quoted (d : Decimal) : String := "Decimal('" ++ d.text ++ "')"

/-- The text of a scalar. -/
def Scalar.text? : Scalar → Option String
  | nil => some "NIL"
  | boolean b => some (if b then "true" else "false")
  | integer i => Numeral.text? i
  | decimal d => some d.plain
  | character s | string s => some s
  | double x => some (Double.text x)

/-- A scalar as it is named in messages. -/
def Scalar.quoted? : Scalar → Option String
  | nil => some "None"
  | boolean b => some (if b then "True" else "False")
  | integer i => Numeral.text? i
  | decimal d => some d.quoted
  | character s => some ("Character(" ++ PlcLang.quoted s ++ ")")
  | string s => some (PlcLang.quoted s)
  | double x => some (Double.text x)

/-- Texts of items in brackets. -/
def bracketed (items : List String) : String := "[" ++ ", ".intercalate items ++ "]"

/-- How the end of a statement is named. -/
def carryOnText : String := "CONTINUE"

/-- How a return is named, given the text of its value. -/
def returnedText (value : String) : String := "Returned(value=" ++ value ++ ")"

namespace Datum

mutual

/-- A value as it is named in messages. -/
def quoted? : Datum → Option String
  | scalar s => s.quoted?
  | list items => (quotedItems? items).map bracketed
  | carryOn => some carryOnText
  | returned value => value.quoted?.map returnedText

/-- The items of a list as they are named in messages. -/
def quotedItems? : List Datum → Option (List String)
  | [] => some []
  | d :: ds => do return (← d.quoted?) :: (← quotedItems? ds)

end

mutual

/-- The text of a value. -/
def text? : Datum → Option String
  | scalar s => s.text?
  | list items => (texts? items).map bracketed
  | carryOn => some carryOnText
  | returned value => value.quoted?.map returnedText

/-- The texts of the items of a list. -/
def texts? : List Datum → Option (List String)
  | [] => some []
  | d :: ds => do return (← d.text?) :: (← texts? ds)

end

/-- The result of a program as it is reported: texts stand bare, all else as in messages. -/
def shown? : Datum → Option String
  | scalar (.decimal d) => some d.text
  | scalar (.character s) | scalar (.string s) => some s
  | d => d.quoted?

end Datum

end PlcLang
