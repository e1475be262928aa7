import PlcLang.Name
import PlcLang.Number.Double
import PlcLang.Number.Numeral
import PlcLang.Ty

/-!
# Faults

What can be wrong with a program, found before it runs or while it does.

* `Fault`: the causes.
* `Fault.category`: names, types, mutability or ranges.
* `Fault.message`: the one place where causes are put into words.
* `Fault.IsWritable`: whether that can be done, which an integer in the message may prevent.
-/

namespace PlcLang

/-- The four kinds of causes. -/
inductive Category where
  /-- A name that is missing or defined twice. -/
  | binding
  /-- A value or type that does not fit. -/
  | type
  /-- An assignment to a constant. -/
  | mutability
  /-- A number or index that is too large or too small. -/
  | range
  deriving DecidableEq, Inhabited

/-- The causes. Where a type is optional, a list has none. -/
inductive Fault where
  | unknownType (name : Name)
  | duplicateVariable (name : Name)
  | undeclaredVariable (name : Name)
  | duplicateFunction (name : Name) (arity : Nat)
  | undeclaredFunction (name : Name) (arity : Nat)
  | bodyless (name : Name)
  | argumentCount (name : Name) (expected received : Nat)
  | unexpectedType (expected : Ty) (received : Option Ty)
  | unsupportedNode (kind : String)
  | mainReturns (type : Ty)
  | untypedGlobal (name : Name)
  | untypedParameter (function : Name)
  | untypedDeclaration (name : Name)
  | idleExpression
  | assignedExpression
  | emptyThen
  | missingDefault
  | earlyDefault
  | returnOutside
  | invalidLiteral (shown : String)
  | groupedOperand
  | incomparable (left right : Option Ty) (operator : String)
  | unfitOperands (left right : Option Ty) (operator : String)
  | unfitBase (type : Option Ty)
  | unknownOperator (operator : String)
  | emptyList
  | foreignValue (shown : String)
  | noList (name : Name)
  | immutable (name : Name)
  | integerRange (i : Int)
  | decimalRange (shown : String)
  | indexRange (index : Int) (size : Nat)
  | divisionByZero
  | negativeExponent (exponent : Int)
  | overflow
  | resultRange (x : Float)
  deriving DecidableEq, Inhabited

/-- How an optional type is named. -/
def typeText : Option Ty → String
  | some t => t.name
  | none => "None"

namespace Fault

/-- The kind of a cause. -/
def category : Fault → Category
  | unknownType _ | duplicateVariable _ | undeclaredVariable _ | duplicateFunction _ _
  | undeclaredFunction _ _ | bodyless _ | argumentCount _ _ _ => .binding
  | immutable _ => .mutability
  | integerRange _ | decimalRange _ | indexRange _ _ | divisionByZero | negativeExponent _
  | overflow | resultRange _ => .range
  | _ => .type

/-- The cause in words. -/
def message : Fault → String
  | unknownType name => s!"Unknown type '{name.shown}'"
  | duplicateVariable name => s!"Variable name already exists in this scope: '{name.shown}'"
  | undeclaredVariable name => s!"Use of undeclared identifier '{name.shown}'"
  | duplicateFunction name arity =>
    s!"Function already exists in this scope: '{name.shown}/{arity}'"
  | undeclaredFunction name arity =>
    s!"Use of undeclared function '{name.shown}' with {arity} argument(s)"
  | bodyless name => s!"Function '{name.shown}' has no body to invoke"
  | argumentCount name expected received =>
    s!"Function '{name.shown}' expects {expected} argument(s), received {received}"
  | unexpectedType expected received =>
    s!"Expected type '{expected.name}', received '{typeText received}'"
  | unsupportedNode kind => s!"Unsupported node '{kind}'"
  | mainReturns type => s!"Function 'main' must return 'Integer', not '{type.name}'"
  | untypedGlobal name => s!"Global '{name.shown}' needs a type or an initial value"
  | untypedParameter function => s!"Every parameter of '{function.shown}' needs a type"
  | untypedDeclaration name => s!"Declaration of '{name.shown}' needs a type or a value"
  | idleExpression => "Expression statements must be function calls"
  | assignedExpression => "Assignment receiver must be a variable access"
  | emptyThen => "IF requires at least one statement in its DO block"
  | missingDefault => "SWITCH must end with a DEFAULT case without a value"
  | earlyDefault => "Only the last case of a SWITCH may be DEFAULT"
  | returnOutside => "RETURN outside of a function"
  | invalidLiteral shown => s!"Invalid literal {shown}"
  | groupedOperand => "Grouped expression must be a binary expression"
  | incomparable left right operator =>
    s!"Cannot compare '{typeText left}' with '{typeText right}' using '{operator}'"
  | unfitOperands left right operator =>
    s!"Cannot use '{operator}' on '{typeText left}' and '{typeText right}'"
  | unfitBase type => s!"Cannot raise '{typeText type}' to a power"
  | unknownOperator operator => s!"Unknown operator '{operator}'"
  | emptyList => "List literals must have at least one element"
  | foreignValue shown => s!"Not a PLC value: {shown}"
  | noList name => s!"Variable '{name.shown}' is not a list"
  | immutable name => s!"Cannot assign to immutable variable '{name.shown}'"
  | integerRange i => s!"Integer out of range: {i}"
  | decimalRange shown => s!"Decimal out of range: {shown}"
  | indexRange index size => s!"Index {index} out of bounds for list of length {size}"
  | divisionByZero => "Division by zero"
  | negativeExponent exponent => s!"Negative exponent {exponent} for an Integer base"
  | overflow => "Decimal result out of range"
  | resultRange x => s!"Decimal result out of range: {Double.text x}"

/-- The integer that the message of a cause holds. -/
def integer? : Fault → Option Int
  | integerRange i | indexRange i _ | negativeExponent i => some i
  | _ => none

/-- The message can be written: an integer in it has a numeral. -/
def IsWritable (f : Fault) : Prop := ∀ i ∈ f.integer?, Numeral.Fits i

instance (f : Fault) : Decidable f.IsWritable := by
  unfold IsWritable
  infer_instance

end Fault

end PlcLang
