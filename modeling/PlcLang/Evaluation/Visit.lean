import PlcLang.Evaluation.Operation

/-!
# Evaluation

An expression evaluates to a value; a statement either carries on or makes its function return. Any
node is evaluated in any position.

* `Run.step`: one node, given how its parts are evaluated.
* `Run.visit`: the evaluation of a node in at most the given depth.
* `Node.run`: the run of a whole program.
-/

namespace PlcLang

namespace Run

open Walk

/-- Writes a line. -/
def printLine (text : String) : Run Unit := fun ⟨store, env, printed⟩ =>
  .ok () ⟨store, env, printed ++ text ++ "\n"⟩

/-- Changes the store. -/
def modifyStore (f : Store Body → Store Body) : Run Unit := fun ⟨store, env, printed⟩ =>
  .ok () ⟨f store, env, printed⟩

/-- A new list. -/
def newList (items : List Value) : Run Value := fun ⟨store, env, printed⟩ =>
  let (id, store) := store.newList items.toArray
  .ok (.list id) ⟨store, env, printed⟩

section

variable (visit : Node → Run Value)

/-- Runs statements in order up to the first that returns. -/
def block : List Node → Run Value
  | [] => pure .carryOn
  | node :: nodes => do
    match ← visit node with
    | .returned v => pure (.returned v)
    | _ => block nodes

/-- Evaluates nodes in order. -/
def values : List Node → Run (List Value)
  | [] => pure []
  | node :: nodes => do
    let v ← visit node
    let vs ← values nodes
    pure (v :: vs)

/-- Binds parameters to arguments in the active scope. -/
def bindParameters (place : Place) : List Name → List Value → Run Unit
  | name :: names, value :: values => do
    let _ ← defineVariable { name, value, origin := place }
    bindParameters place names values
  | _, _ => pure ()

/-- Calls a function. -/
def invoke (f : Function Body) (arguments : List Value) : Run Value := do
  match ← lift (f.bodyFor arguments.length) with
  | .print =>
    printLine (← textOf (arguments.headD .nil))
    pure .nil
  | .code env parameters statements place =>
    inChildOf env do
      bindParameters place parameters arguments
      match ← block visit statements with
      | .returned v => pure v
      | _ => pure .nil

/-- Runs the first case whose value equals the condition, or else the last default. -/
def choose (condition : Value) (default : Option Node) : List Node → Run Value
  | [] =>
    match default with
    | some node => visit node
    | none => pure .carryOn
  | node :: nodes => do
    let value ← part node.caseValue?
    if value.isPresent then
      if ← equal condition (← visit value) then visit node else choose condition default nodes
    else choose condition (some node) nodes

/-- Runs the statements as long as the condition holds and none returns, at most the given number
of times. -/
def repeatWhile (condition : Node) (statements : List Node) : (rounds : Nat) → Run Value
  | 0 => throw .unfinished
  | rounds + 1 => do
    if ← requireBoolean (← visit condition) then
      match ← inChild (block visit statements) with
      | .returned v => pure (.returned v)
      | _ => repeatWhile condition statements rounds
    else pure .carryOn

/-- The value of an optional part. -/
def valueOf (node : Node) : Run Value := if node.isPresent then visit node else pure .nil

/-- Adds a variable to the active scope. -/
def declare (name : Name) (mutable : Option Bool) (value : Node) (place : Place) : Run Unit := do
  let value ← valueOf visit value
  let _ ← defineVariable { name, mutable, value, origin := place }
  pure ()

/-- Adds a function to the active scope; it remembers the environment. -/
def declareFunction (name : Name) (parameters : List Name) (statements : List Node)
    (place : Place) : Run Unit := do
  let env := (← get).env
  let _ ← defineFunction
    { name, parameterTypes := parameters.map fun _ => .any, returnType := .any,
      body := some (.code env parameters statements place), origin := place }
  pure ()

/-- Replaces the value of a variable. -/
def assignVariable (ref : VariableRef) (value : Node) : Run Unit := do
  let value ← visit value
  modifyStore (·.setVariable ref value)

/-- Replaces an item of the list that a variable holds at the beginning. -/
def assignItem (name : Name) (held : Value) (offset value : Node) : Run Unit := do
  let id ← requireList name held
  let index ← requireInteger (← visit offset)
  let value ← visit value
  let index ← requireIndex id index
  modifyStore (·.setItem id index value)

/-- Assigns to a variable or to an item of the list that it holds. -/
def assign (name : Name) (offset value : Node) : Run Unit := do
  let (ref, target) ← lookupVariable name
  require target.isMutable (.immutable name)
  if offset.isPresent then assignItem visit name target.value offset value
  else assignVariable visit ref value

/-- An item of the list that a variable holds at the beginning. -/
def item (name : Name) (held : Value) (offset : Node) : Run Value := do
  let id ← requireList name held
  let index ← requireIndex id (← requireInteger (← visit offset))
  part ((← get).store.list id)[index]?

/-- The value of a variable or of an item of the list that it holds. -/
def access (name : Name) (offset : Node) : Run Value := do
  let (_, target) ← lookupVariable name
  if offset.isPresent then item visit name target.value offset else pure target.value

/-- An operation; the logical ones evaluate their right operand only if it decides. -/
def operation (op : Operator) (left right : Node) : Run Value := do
  let l ← visit left
  match op with
  | .and =>
    if ← requireBoolean l then return .boolean (← requireBoolean (← visit right))
    else pure (.boolean false)
  | .or =>
    if ← requireBoolean l then pure (.boolean true)
    else return .boolean (← requireBoolean (← visit right))
  | op => operate op l (← visit right)

/-- Calls the visible function of a name with the values of the arguments. -/
def callWith (name : Name) (arguments : List Node) : Run Value := do
  let (_, f) ← lookupFunction name arguments.length
  invoke visit f (← values visit arguments)

/-- Runs one of two blocks. -/
def branch (condition : Node) (thenStatements elseStatements : List Node) : Run Value := do
  if ← requireBoolean (← visit condition) then inChild (block visit thenStatements)
  else inChild (block visit elseStatements)

/-- Evaluates the parts of a program and then calls its main function. -/
def runProgram (globals functions : List Node) : Run Value := do
  let _ ← values visit globals
  let _ ← values visit functions
  let (_, main) ← lookupFunction "main" 0
  invoke visit main []

/-- Evaluates one node; `visit` evaluates its parts, and a loop has at most `rounds` rounds. -/
def step (rounds : Nat) (node : Node) : Run Value :=
  match node with
  | .missing | .bare _ => raise (.unsupportedNode node.kind)
  | .source globals functions => runProgram visit globals functions
  | .global name _ mutable value _ place => do
    declare visit name mutable value place
    pure .nil
  | .function name parameters _ _ statements _ place => do
    declareFunction name parameters statements place
    pure .nil
  | .expressionStatement expression _ => do
    let _ ← visit expression
    pure .carryOn
  | .declaration name _ value _ place => do
    declare visit name true value place
    pure .carryOn
  | .assignment receiver value _ =>
    match receiver with
    | .access name offset _ _ _ => do
      assign visit name offset value
      pure .carryOn
    | _ => raise .assignedExpression
  | .conditional condition thenStatements elseStatements _ =>
    branch visit condition thenStatements elseStatements
  | .switch condition cases _ => do choose visit (← visit condition) none cases
  | .case _ statements _ => inChild (block visit statements)
  | .whileLoop condition statements _ => repeatWhile visit condition statements rounds
  | .returning value _ => do return .returned (← visit value)
  | .literal value _ _ => pure value
  | .group expression _ _ => visit expression
  | .binary operator left right _ _ => operation visit operator left right
  | .access name offset _ _ _ => access visit name offset
  | .call name arguments _ _ _ => callWith visit name arguments
  | .listLiteral elements _ _ => do newList (← values visit elements)

end

/-- Evaluates a node whose parts are nested, calls included, less than `depth` deep. -/
def visit : (depth : Nat) → Node → Run Value
  | 0, _ => throw .unfinished
  | depth + 1, node => attached node (step (visit depth) depth node)

/-- Calls the visible function of a name. -/
def call (depth : Nat) (name : Name) (arguments : List Value) : Run Value := do
  let (_, f) ← lookupFunction name arguments.length
  invoke (visit depth) f arguments

/-- The state in which a run starts. -/
def start (store : Store Body) (outer : Option Env) : State Body String :=
  Walk.start store outer .print ""

end Run

/-- The run of a program. -/
def Node.run (depth : Nat) (source : Node) : EStateM.Result Stop (State Body String) Value :=
  Run.visit depth source (Run.start {} none)

end PlcLang
