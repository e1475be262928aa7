import PlcLang.Number.Arithmetic
import PlcLang.Walk

/-!
# Operations on values

A run checks the kinds of its values at every step, so it does not depend on the analysis.

* `Run`: walks that print.
* `Run.typeOf`, `Run.requireBoolean`, …: the checks.
* `Run.operate`: the operators that evaluate both operands.
-/

namespace PlcLang

/-- What a function runs when it is called. -/
inductive Body where
  /-- Prints its argument. -/
  | print
  /-- Runs statements in a scope of their own inside the environment of the definition. -/
  | code (env : Env) (parameters : List Name) (statements : List Node) (place : Place)
  deriving Inhabited

/-- A run keeps the text that was printed. -/
abbrev Run := Walk Body String

namespace Run

open Walk

/-! ## Checks -/

/-- The type of a value, none for a list. -/
def typeOf (v : Value) : Run (Option Ty) := reading (·.typeOf v)

/-- The truth value. -/
def requireBoolean : Value → Run Bool
  | .scalar (.boolean b) => pure b
  | v => do raise (.unexpectedType .boolean (← typeOf v))

/-- The integer. -/
def requireInteger : Value → Run Int
  | .scalar (.integer i) => pure i
  | v => do raise (.unexpectedType .integer (← typeOf v))

/-- The list that the variable of the given name holds. -/
def requireList (name : Name) : Value → Run ListId
  | .list id => pure id
  | _ => raise (.noList name)

/-- The index of an item of a list. -/
def requireIndex (id : ListId) (index : Int) : Run Nat := do
  let size := ((← get).store.list id).size
  if 0 ≤ index ∧ index < size then pure index.toNat else raise (.indexRange index size)

/-! ## Operators -/

/-- The values are equal. -/
def equal (l r : Value) : Run Bool := reading (·.equal l r)

/-- The text of a value. -/
def textOf (v : Value) : Run String := reading (·.text v)

/-- Compares two values of one ordered type. -/
def compare (op : Operator) (l r : Value) : Run Value := do
  let s ← typeOf l
  let t ← typeOf r
  match l, r with
  | .scalar a, .scalar b =>
    require (s = t ∧ s ≠ some .nil) (.incomparable s t op.symbol)
    if a.unordered b then throw .unordered
    else pure (.boolean (if op = .less then a.less b else b.less a))
  | _, _ => raise (.incomparable s t op.symbol)

/-- Computes with two numbers of one type. -/
def arithmetic (op : Operator) (l r : Value) : Run Value := do
  let s ← typeOf l
  let t ← typeOf r
  match l, r with
  | .scalar (.integer a), .scalar (.integer b) => return .integer (← lift (Word.operate op a b))
  | .scalar (.decimal a), .scalar (.decimal b) => return .decimal (← lift (Decimal.operate op a b))
  | _, _ => raise (.unfitOperands s t op.symbol)

/-- Joins two texts if one of the values is a string, else adds two numbers. -/
def plus (l r : Value) : Run Value := do
  let s ← typeOf l
  let t ← typeOf r
  if s = some .string ∨ t = some .string then return .string ((← textOf l) ++ (← textOf r))
  else arithmetic .plus l r

/-- Raises a number to an integer power. -/
def power (l r : Value) : Run Value := do
  let exponent ← requireInteger r
  match l with
  | .scalar (.integer base) => return .integer (← lift (Word.raised base exponent))
  | .scalar (.decimal base) => return .decimal (← lift (Decimal.raised base exponent))
  | l => raise (.unfitBase (← typeOf l))

/-- Applies an operator to both operands. -/
def operate (op : Operator) (l r : Value) : Run Value :=
  match op with
  | .and => return .boolean ((← requireBoolean l) && (← requireBoolean r))
  | .or => return .boolean ((← requireBoolean l) || (← requireBoolean r))
  | .equal => return .boolean (← equal l r)
  | .unequal => return .boolean (!(← equal l r))
  | .less | .greater => compare op l r
  | .plus => plus l r
  | .minus | .times | .divide => arithmetic op l r
  | .power => power l r
  | .other symbol => raise (.unknownOperator symbol.shown)

end Run

end PlcLang
