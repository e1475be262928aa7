import PlcLang.Grammar.Token
import PlcLang.Node

/-!
# Expressions

Four levels of binary operators, each grouped to the left, over literals, groups, calls and
accesses. All operations of a chain stand where its first operand stands.

* `Grammar.chain`: one level.
* `Grammar.expression`: the expressions whose parentheses are nested less than `depth` deep.
-/

namespace PlcLang.Grammar

/-- The operator of one of the given symbols, the first that can be read. -/
def operator : List Operator → Parser Operator
  | [] => refuse
  | op :: ops => commit (mark op.symbol) (fun _ => pure op) (operator ops)

/-- An operator and its right operand. -/
def operation (ops : List Operator) (operand : Parser Node) : Parser (Operator × Node) := do
  let op ← operator ops
  return (op, ← operand)

/-- Joins operands from left to right. -/
def joined (place : Place) (first : Node) (rest : List (Operator × Node)) : Node :=
  rest.foldl (fun left r => .binary r.1 left r.2 none place) first

/-- Operands joined by operators of one level. -/
def chain (bound : Nat) (ops : List Operator) (operand : Parser Node) : Parser Node := do
  let place ← here
  let first ← operand
  return joined place first (← many (operation ops operand) bound)

/-- Literals that are no words. -/
def wordlessLiteral (place : Place) : Parser Node :=
  let leaf (v : Value) : Node := .literal v none place
  commit decimal (fun d => pure (leaf (.decimal d))) <|
  commit integer (fun i => pure (leaf (.integer i))) <|
  commit character (fun c => pure (leaf (.character c))) <|
  commit string (fun s => pure (leaf (.string s))) refuse

/-- Literals. -/
def literal (place : Place) : Parser Node :=
  byWord [("NIL", pure (.literal .nil none place)), ("TRUE", pure (.literal (.boolean true) none place)),
    ("FALSE", pure (.literal (.boolean false) none place))] (wordlessLiteral place)

/-- Operands, given the expressions that may stand inside parentheses and brackets. -/
def operand (bound : Nat) (inner : Parser Node) : Parser Node := do
  let place ← here
  commit (literal place) pure <|
    commit (mark "(") (fun _ => do
      let e ← inner
      mark ")"
      return .group e none place) do
    let id ← name
    commit (mark "(") (fun _ => do
        let arguments ← perhapsSeparated inner bound
        mark ")"
        return .call id arguments none none place) <|
      commit (mark "[") (fun _ => do
        let offset ← inner
        mark "]"
        return .access id offset none none place) <|
      pure (.access id .missing none none place)

/-- Expressions. -/
def expression : (depth : Nat) → Parser Node
  | 0 => refuse
  | depth + 1 =>
    chain depth [.and, .or] <|
    chain depth [.equal, .unequal, .less, .greater] <|
    chain depth [.plus, .minus] <|
    chain depth [.times, .divide, .power] <|
    operand depth (expression depth)

end PlcLang.Grammar
