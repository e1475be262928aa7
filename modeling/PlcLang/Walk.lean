import PlcLang.Store.Contents

/-!
# Walking over a tree

The analysis and the run both visit the nodes of a tree. They share the store, the active
environment and the way in which faults are raised: a fault is attached to the innermost node that
was being visited, and the active scope is what it was before, however a block is left.

* `Walk`: walks, with a store whose functions have bodies in `β` and a register of type `ρ`.
* `attached`, `inChildOf`: the two brackets around visits and blocks.
-/

namespace PlcLang

/-! ## Walks -/

/-- The state of a walk: the store, the active environment and what the walk keeps besides. -/
structure State (β ρ : Type) where
  store : Store β
  env : Env
  register : ρ
  deriving Inhabited

/-- Walks: the state survives an early end. -/
abbrev Walk (β ρ : Type) := EStateM Stop (State β ρ)

namespace Walk

variable {β ρ α : Type}

/-- Ends the walk with a fault. -/
def raise (f : Fault) : Walk β ρ α := throw (.raised f)

/-- The value of a computation that may be at fault. -/
def lift : Except Fault α → Walk β ρ α
  | .ok a => pure a
  | .error f => raise f

/-- Raises the fault unless the condition holds. -/
def require (condition : Bool) (f : Fault) : Walk β ρ Unit :=
  if condition then pure () else raise f

/-- Asks for a part that a node may lack. -/
def part : Option α → Walk β ρ α
  | some a => pure a
  | none => throw .malformed

/-- Visits a node: a fault without a node gets this one. -/
def attached (node : Node) (x : Walk β ρ α) : Walk β ρ α := fun s =>
  match x s with
  | .error (.fault e) s => .error (.fault (e.attach node)) s
  | r => r

/-- Runs a block in a new scope inside `outer`; the active environment is restored afterwards. -/
def inChildOf (outer : Env) (x : Walk β ρ α) : Walk β ρ α := fun ⟨store, env, register⟩ =>
  let (inner, store) := store.child outer
  match x ⟨store, inner, register⟩ with
  | .ok a s => .ok a { s with env }
  | .error e s => .error e { s with env }

/-- Runs a block in a new scope inside the active one. -/
def inChild (x : Walk β ρ α) : Walk β ρ α := do inChildOf (← get).env x

/-- The value of a computation on the store that leaves it alone. -/
def reading (f : Store β → Except Stop α) : Walk β ρ α := fun s =>
  match f s.store with
  | .ok a => .ok a s
  | .error e => .error e s

/-! ## Bindings -/

/-- Applies an operation on the store in the active environment. -/
def inStore (x : Env → EStateM Fault (Store β) α) : Walk β ρ α := fun ⟨store, env, register⟩ =>
  match x env store with
  | .ok a store => .ok a ⟨store, env, register⟩
  | .error f store => .error (.raised f) ⟨store, env, register⟩

/-- The innermost visible variable of a name. -/
def lookupVariable (name : Name) : Walk β ρ (VariableRef × Variable) :=
  inStore fun env => Store.lookupVariable env name

/-- The innermost visible function of a name and a number of parameters. -/
def lookupFunction (name : Name) (arity : Nat) : Walk β ρ (FunctionRef × Function β) :=
  inStore fun env => Store.lookupFunction env name arity

/-- Adds a variable to the active scope. -/
def defineVariable (v : Variable) : Walk β ρ VariableRef :=
  inStore fun env => Store.defineVariable env v

/-- Adds a function to the active scope. -/
def defineFunction (f : Function β) : Walk β ρ FunctionRef :=
  inStore fun env => Store.defineFunction env f

/-! ## Start -/

/-- The state in which a walk starts: an active scope, inside another one if one is given, in which
only `print` is defined. -/
def start (store : Store β) (outer : Option Env) (print : β) (register : ρ) : State β ρ :=
  let (env, store) := match outer with
    | some outer => store.child outer
    | none => store.root
  let builtin : Function β :=
    { name := "print", parameterTypes := [.any], returnType := .nil, body := some print }
  let store := store.modifyScope env.scope fun sc => { sc with functions := [builtin] }
  ⟨store, env, register⟩

end Walk

end PlcLang
