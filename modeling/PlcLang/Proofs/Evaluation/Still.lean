import PlcLang.Evaluation.Operation
import PlcLang.Proofs.Walk

/-!
# Operations leave the state alone

Whatever the operands are, and whether there is a result or not.

* `Run.operate_still`: all operators.
-/

namespace PlcLang

namespace Run

open Walk

variable {op : Operator} {l r v : Value}

theorem typeOf_still : Still (typeOf v) := .reading

theorem textOf_still : Still (textOf v) := .reading

theorem equal_still : Still (equal l r) := .reading

theorem requireBoolean_still : Still (requireBoolean v) := by
  unfold requireBoolean
  split
  · exact .pure
  · exact typeOf_still.bind fun _ => .raise

theorem requireInteger_still : Still (requireInteger v) := by
  unfold requireInteger
  split
  · exact .pure
  · exact typeOf_still.bind fun _ => .raise

theorem requireList_still {name : Name} : Still (requireList name v) := by
  unfold requireList
  split
  · exact .pure
  · exact .raise

theorem requireIndex_still {id : ListId} {index : Int} : Still (requireIndex id index) :=
  Still.get.bind fun _ => .ite .pure .raise

theorem compare_still : Still (compare op l r) := by
  refine typeOf_still.bind fun _ => typeOf_still.bind fun _ => ?_
  split
  · exact Still.require.bind fun _ => .ite .throw .pure
  · exact .raise

theorem arithmetic_still : Still (arithmetic op l r) := by
  refine typeOf_still.bind fun _ => typeOf_still.bind fun _ => ?_
  split
  · exact Still.lift.bind fun _ => .pure
  · exact Still.lift.bind fun _ => .pure
  · exact .raise

theorem plus_still : Still (plus l r) :=
  typeOf_still.bind fun _ => typeOf_still.bind fun _ =>
    .ite (textOf_still.bind fun _ => textOf_still.bind fun _ => .pure) arithmetic_still

theorem power_still : Still (power l r) := by
  refine requireInteger_still.bind fun _ => ?_
  split
  · exact Still.lift.bind fun _ => .pure
  · exact Still.lift.bind fun _ => .pure
  · exact typeOf_still.bind fun _ => .raise

/-- **No operation changes the state.** -/
theorem operate_still : Still (operate op l r) := by
  cases op with
  | and | or => exact requireBoolean_still.bind fun _ => requireBoolean_still.bind fun _ => .pure
  | equal | unequal => exact equal_still.bind fun _ => .pure
  | less | greater => exact compare_still
  | plus => exact plus_still
  | minus | times | divide => exact arithmetic_still
  | power => exact power_still
  | other => exact .raise

end Run

end PlcLang
