import PlcLang.Fault
import PlcLang.Node

/-!
# Early ends

The analysis or the run of a program ends early because the program is at fault, or because it
cannot be carried further.

* `Located`: a fault with the node it is attached to.
* `Stop`: why a walk over a tree ended early.
-/

namespace PlcLang

/-! ## Located faults -/

/-- A fault, the node it is attached to, and where that node stands. -/
structure Located (ε : Type) where
  fault : ε
  node : Option Node := none
  /-- The line of the node, unless another one was given. -/
  line : Option Int := none
  column : Option Int := none
  deriving Inhabited

namespace Located

variable {ε : Type}

/-- Attaches a node unless there is one already. -/
def attach (e : Located ε) (node : Node) : Located ε :=
  match e.node, node with
  | some _, _ | none, .missing => e
  | none, node =>
    match e.line with
    | some _ => { e with node := some node }
    | none => { e with node := some node, line := node.place.line, column := node.place.column }

/-- The text of a fault: its message after the place, as far as that is known. -/
def text (message : ε → String) (e : Located ε) : String :=
  match e.line, e.column with
  | some l, some c => s!"(line {l}, col {c}) {message e.fault}"
  | some l, none => s!"(line {l}) {message e.fault}"
  | none, _ => message e.fault

end Located

/-! ## Stops -/

/-- Why a walk ended early. -/
inductive Stop where
  /-- The program is at fault. -/
  | fault (e : Located Fault)
  /-- A node was asked for a part that nodes of its kind do not have. -/
  | malformed
  /-- A number was put in order with what is no number. -/
  | unordered
  /-- An integer was to be written that has too many digits. -/
  | overlong
  /-- The bound on the number of steps was reached. -/
  | unfinished
  deriving Inhabited

/-- The program is at fault, at no node yet. -/
def Stop.raised (f : Fault) : Stop := .fault { fault := f }

end PlcLang
