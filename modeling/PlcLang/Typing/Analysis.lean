import PlcLang.Number.Word
import PlcLang.Typing.Operation
import PlcLang.Walk

/-!
# Analysis

The analysis visits every node once, in the order in which a program is written. It binds names,
gives a type to every expression and ends at the first fault. The tree it returns is the tree it was
given with the slots for types and bindings filled.

* `Analysis.step`: one node, given how its parts are visited.
* `Analysis.visit`: the visit of any node in any state.
* `Node.analyze`: the analysis of a whole program.
-/

namespace PlcLang

/-- The analysis keeps the return type of the function whose body it is in. -/
abbrev Analysis := Walk Unit (Option Ty)

namespace Analysis

open Walk

/-- Runs the analysis of a body; the function around it is restored afterwards. -/
def inFunction {α : Type} (returns : Ty) (x : Analysis α) : Analysis α :=
  fun ⟨store, env, register⟩ =>
    match x ⟨store, env, some returns⟩ with
    | .ok a s => .ok a { s with register }
    | .error e s => .error e { s with register }

/-- The type of the given name. -/
def resolve (name : Name) : Analysis Ty :=
  match name.bind Ty.ofName? with
  | some t => pure t
  | none => raise (.unknownType name)

/-- The type of an expression that was visited. -/
def typeOf (node : Node) : Analysis Ty := part node.type?

/-- Refuses an expression that was visited and whose type does not fit. -/
def expect (target : Ty) (node : Node) : Analysis Unit := do
  lift (target.check (← typeOf node))

/-- Visits an optional part. -/
def whenPresent (node : Node) (visited : Analysis Node) : Analysis Node :=
  if node.isPresent then visited else pure .missing

/-- Refuses an optional expression that was visited and whose type does not fit. -/
def expectPresent (target : Ty) (node : Node) : Analysis Unit :=
  if node.isPresent then expect target node else pure ()

/-- The type of a new variable: the one that is named, or else that of its value. -/
def declaredType (typeName : Name) (value : Node) (untyped : Fault) : Analysis Ty :=
  match typeName with
  | some _ => resolve typeName
  | none => if value.isPresent then typeOf value else raise untyped

/-- The type of what a function returns. -/
def returnedType (typeName : Name) : Analysis Ty :=
  match typeName with
  | some _ => resolve typeName
  | none => pure .nil

/-- Refuses cases the last of which has a value. -/
def requireDefault (cases : List Node) : Analysis Unit :=
  match cases.getLast? with
  | none => raise .missingDefault
  | some last => do
    let value ← part last.caseValue?
    require (!value.isPresent) .missingDefault

/-- The type of a literal. -/
def literalType : Value → Analysis Ty
  | .scalar (.integer i) => do
    require (Word.InRange i) (.integerRange i)
    pure .integer
  | .scalar (.decimal d) => do
    require (Double.ofDecimal d).isFinite (.decimalRange d.text)
    pure .decimal
  | .scalar (.double x) => do
    require x.isFinite (.decimalRange (Double.text x))
    pure .decimal
  | .scalar s => part s.type?
  | v => do raise (.invalidLiteral (← reading (·.quoted v)))

/-- The variable that an access was resolved to. -/
def accessed (node : Node) : Analysis Variable := do
  let ref ← part node.accessed?
  part ((← get).store.variableAt? ref)

/-- Adds the parameters of a function to the active scope. -/
def defineParameters (place : Place) : List Name → List Ty → Analysis Unit
  | name :: names, type :: types => do
    let _ ← defineVariable { name, type, origin := place }
    defineParameters place names types
  | _, _ => pure ()

section

variable (visit : Node → Analysis Node)

/-- Visits nodes one after another. -/
def visitAll : List Node → Analysis (List Node)
  | [] => pure []
  | node :: nodes => do
    let node ← visit node
    let nodes ← visitAll nodes
    pure (node :: nodes)

/-- Visits the arguments of a call, each of which has to fit its parameter. -/
def visitArguments : List Node → List Ty → Analysis (List Node)
  | node :: nodes, type :: types => do
    let node ← visit node
    expect type node
    let nodes ← visitArguments nodes types
    pure (node :: nodes)
  | nodes, _ => pure nodes

/-- Visits the value of a case. -/
def visitCaseValue (node : Node) : Analysis Node := do
  let value ← part node.caseValue?
  require value.isPresent .earlyDefault
  visit value

/-- Visits the values of all cases but the last, each of which has to fit the condition. -/
def visitCaseValues (condition : Option Ty) : List Node → Analysis (List Node)
  | [] => pure []
  | node :: nodes => do
    if nodes.isEmpty then pure [.missing]
    else
      let value ← visitCaseValue visit node
      expect (← part condition) value
      let values ← visitCaseValues condition nodes
      pure (value :: values)

/-- Visits the body of a function in a scope of its own that holds the parameters. -/
def visitBody (returns : Ty) (place : Place) (names : List Name) (types : List Ty)
    (statements : List Node) : Analysis (List Node) :=
  inFunction returns <| inChild do
    defineParameters place names types
    visitAll visit statements

/-- Visits one node and returns it with its slots filled; `visit` visits its parts. -/
def step (node : Node) : Analysis Node :=
  match node with
  | .missing | .bare _ => raise (.unsupportedNode node.kind)
  | .source globals functions => do
    let globals ← visitAll visit globals
    let functions ← visitAll visit functions
    let (_, main) ← lookupFunction "main" 0
    require (main.returnType = .integer) (.mainReturns main.returnType)
    pure (.source globals functions)
  | .global name typeName mutable value _ place => do
    let value ← whenPresent value (visit value)
    let type ← declaredType typeName value (.untypedGlobal name)
    let ref ← defineVariable { name, type, mutable, origin := place }
    expectPresent type value
    pure (.global name typeName mutable value ref place)
  | .function name parameters parameterTypeNames returnTypeName statements _ place => do
    require (parameters.length = parameterTypeNames.length) (.untypedParameter name)
    let parameterTypes ← parameterTypeNames.mapM resolve
    let returnType ← returnedType returnTypeName
    let ref ← defineFunction { name, parameterTypes, returnType, origin := place }
    let statements ← visitBody visit returnType place parameters parameterTypes statements
    pure (.function name parameters parameterTypeNames returnTypeName statements ref place)
  | .expressionStatement expression place => do
    require expression.isCall .idleExpression
    pure (.expressionStatement (← visit expression) place)
  | .declaration name typeName value _ place => do
    require (typeName.isSome || value.isPresent) (.untypedDeclaration name)
    let value ← whenPresent value (visit value)
    let type ← declaredType typeName value (.untypedDeclaration name)
    let ref ← defineVariable { name, type, origin := place }
    expectPresent type value
    pure (.declaration name typeName value ref place)
  | .assignment receiver value place => do
    require receiver.isAccess .assignedExpression
    let receiver ← visit receiver
    let target ← accessed receiver
    require target.isMutable (.immutable target.name)
    let value ← visit value
    expect (← typeOf receiver) value
    pure (.assignment receiver value place)
  | .conditional condition thenStatements elseStatements place => do
    let condition ← visit condition
    expect .boolean condition
    require (!thenStatements.isEmpty) .emptyThen
    let thenStatements ← inChild (visitAll visit thenStatements)
    let elseStatements ← inChild (visitAll visit elseStatements)
    pure (.conditional condition thenStatements elseStatements place)
  | .switch condition cases place => do
    let condition ← visit condition
    requireDefault cases
    let values ← visitCaseValues visit condition.type? cases
    let cases ← visitAll visit cases
    pure (.switch condition (List.zipWith Node.withCaseValue values cases) place)
  | .case value statements place => do
    let statements ← inChild (visitAll visit statements)
    pure (.case value statements place)
  | .whileLoop condition statements place => do
    let condition ← visit condition
    expect .boolean condition
    let statements ← inChild (visitAll visit statements)
    pure (.whileLoop condition statements place)
  | .returning value place => do
    match (← get).register with
    | none => raise .returnOutside
    | some returns =>
      let value ← visit value
      expect returns value
      pure (.returning value place)
  | .literal value _ place => do
    pure (.literal value (← literalType value) place)
  | .group expression _ place => do
    require expression.isBinary .groupedOperand
    let expression ← visit expression
    pure (.group expression (← typeOf expression) place)
  | .binary operator left right _ place => do
    let left ← visit left
    let right ← visit right
    let type ← lift (operator.resultType (← typeOf left) (← typeOf right))
    pure (.binary operator left right type place)
  | .access name offset _ _ place => do
    let (ref, target) ← lookupVariable name
    let offset ← whenPresent offset (visit offset)
    expectPresent .integer offset
    pure (.access name offset target.type ref place)
  | .call name arguments _ _ place => do
    let (ref, function) ← lookupFunction name arguments.length
    let arguments ← visitArguments visit arguments function.parameterTypes
    pure (.call name arguments function.returnType ref place)
  | .listLiteral elements _ place => do
    require (!elements.isEmpty) .emptyList
    let elements ← visitAll visit elements
    let type ← part (elements.head?.bind Node.type?)
    elements.forM (expect type)
    pure (.listLiteral elements type place)

end

/-- Visits a node of a tree that has at most `depth` levels. -/
def visitWithin : (depth : Nat) → Node → Analysis Node
  | 0, _ => throw .unfinished
  | depth + 1, node => attached node (step (visitWithin depth) node)

/-- Visits a node and returns it with its slots filled. -/
def visit (node : Node) : Analysis Node := visitWithin node.height node

/-- The state in which an analysis starts. -/
def start (store : Store Unit) (outer : Option Env) : State Unit (Option Ty) :=
  Walk.start store outer () none

end Analysis

/-- The analysis of a program: the program with its slots filled, or why there is none. -/
def Node.analyze (source : Node) : Except Stop Node :=
  match Analysis.visit source (Analysis.start {} none) with
  | .ok node _ => .ok node
  | .error e _ => .error e

end PlcLang
