import PlcLang.Fault
import PlcLang.Operator

/-!
# Types of operations

* `Operator.resultType`: the type of an operation, given those of its operands.
-/

namespace PlcLang

/-- Refuses a type that is not accepted where `target` is expected. -/
def Ty.check (target source : Ty) : Except Fault Unit :=
  if target.Accepts source then .ok () else .error (.unexpectedType target (some source))

namespace Operator

/-- The type of an operation on operands of the given types. -/
def resultType (op : Operator) (left right : Ty) : Except Fault Ty :=
  match op with
  | and | or => do
    Ty.boolean.check left
    Ty.boolean.check right
    .ok .boolean
  | equal | unequal | less | greater => do
    if left ≠ right then .error (.incomparable (some left) (some right) op.symbol)
    Ty.comparable.check left
    .ok .boolean
  | plus =>
    if left = .string ∨ right = .string then .ok .string else arithmeticType left right
  | minus | times | divide => arithmeticType left right
  | power => do
    Ty.integer.check right
    if left.isNumeric then .ok left else .error (.unfitBase (some left))
  | other symbol => .error (.unknownOperator symbol.shown)
where
  /-- The common type of two numbers. -/
  arithmeticType (left right : Ty) : Except Fault Ty :=
    if left = right ∧ left.isNumeric then .ok left
    else .error (.unfitOperands (some left) (some right) op.symbol)

end Operator

end PlcLang
