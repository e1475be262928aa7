import PlcLang.Name
import PlcLang.Operator
import PlcLang.Text.Place
import PlcLang.Value

/-!
# Trees

A program is a tree of nodes. There is one type of nodes, because every node may be put into every
position: what cannot stand there is found by the analysis or when the tree is run. The analysis
fills the slots for types and bindings.

* `Node`: the trees; `Node.missing` stands for an absent child.
* `Node.kind`, `Node.place`, `Node.type?`: what a node is, where it stands, which type it was given.
* `Node.caseValue?`: the value that a node offers when it stands among the cases of a `SWITCH`.
* `Node.height`: how many levels a tree has.
-/

namespace PlcLang

/-- The number of a scope in the store. -/
abbrev ScopeId := Nat

/-- A variable binding of the store, by the scope that holds it. -/
structure VariableRef where
  scope : ScopeId
  name : Name
  deriving DecidableEq, Inhabited

/-- A function binding of the store, by the scope that holds it; the arity is the number of its
parameters. -/
structure FunctionRef where
  scope : ScopeId
  name : Name
  arity : Nat
  deriving DecidableEq, Inhabited

/-- The kinds of nodes that stand for no construct of the language. -/
inductive BareKind where
  | node
  | statement
  | expression
  deriving DecidableEq, Inhabited

/-- The trees. Expressions have a slot for their type; accesses, declarations and globals one for
their variable, calls and functions one for their function. -/
inductive Node where
  /-- No node at all. -/
  | missing
  /-- A node that is no construct of the language. -/
  | bare (kind : BareKind)
  | literal (value : Value) (type : Option Ty) (place : Place)
  | group (expression : Node) (type : Option Ty) (place : Place)
  | binary (operator : Operator) (left right : Node) (type : Option Ty) (place : Place)
  | access (name : Name) (offset : Node) (type : Option Ty) (binding : Option VariableRef)
      (place : Place)
  | call (name : Name) (arguments : List Node) (type : Option Ty)
      (binding : Option FunctionRef) (place : Place)
  | listLiteral (elements : List Node) (type : Option Ty) (place : Place)
  | expressionStatement (expression : Node) (place : Place)
  | declaration (name : Name) (typeName : Name) (value : Node)
      (binding : Option VariableRef) (place : Place)
  | assignment (receiver value : Node) (place : Place)
  | conditional (condition : Node) (thenStatements elseStatements : List Node) (place : Place)
  /-- One case of a switch; the default has no value. -/
  | case (value : Node) (statements : List Node) (place : Place)
  | switch (condition : Node) (cases : List Node) (place : Place)
  | whileLoop (condition : Node) (statements : List Node) (place : Place)
  | returning (value : Node) (place : Place)
  | global (name : Name) (typeName : Name) (mutable : Option Bool) (value : Node)
      (binding : Option VariableRef) (place : Place)
  | function (name : Name) (parameters parameterTypeNames : List Name)
      (returnTypeName : Name) (statements : List Node) (binding : Option FunctionRef)
      (place : Place)
  | source (globals functions : List Node)
  deriving Inhabited

namespace Node

/-- The name of a node's kind. -/
def kind : Node → String
  | missing => "NoneType"
  | bare .node => "Node"
  | bare .statement => "Statement"
  | bare .expression => "Expression"
  | literal .. => "Literal"
  | group .. => "Group"
  | binary .. => "Binary"
  | access .. => "Access"
  | call .. => "Call"
  | listLiteral .. => "ListLiteral"
  | expressionStatement .. => "ExpressionStatement"
  | declaration .. => "Declaration"
  | assignment .. => "Assignment"
  | conditional .. => "If"
  | case .. => "Case"
  | switch .. => "Switch"
  | whileLoop .. => "While"
  | returning .. => "Return"
  | global .. => "Global"
  | function .. => "Function"
  | source .. => "Source"

/-- Where a node stands. -/
def place : Node → Place
  | missing | bare _ | source .. => .unknown
  | literal _ _ p | group _ _ p | binary _ _ _ _ p | access _ _ _ _ p | call _ _ _ _ p
  | listLiteral _ _ p | expressionStatement _ p | declaration _ _ _ _ p | assignment _ _ p
  | conditional _ _ _ p | case _ _ p | switch _ _ p | whileLoop _ _ p | returning _ p
  | global _ _ _ _ _ p | function _ _ _ _ _ _ p => p

/-- The type that the analysis gave to an expression. -/
def type? : Node → Option Ty
  | literal _ t _ | group _ t _ | binary _ _ _ t _ | access _ _ t _ _ | call _ _ t _ _
  | listLiteral _ t _ => t
  | _ => none

/-- The node is a node. -/
def isPresent : Node → Bool
  | missing => false
  | _ => true

/-- The node is a binary operation. -/
def isBinary : Node → Bool
  | binary .. => true
  | _ => false

/-- The node is an access to a variable or to an item of a list. -/
def isAccess : Node → Bool
  | access .. => true
  | _ => false

/-- The node is a call. -/
def isCall : Node → Bool
  | call .. => true
  | _ => false

/-- The variable that an access was resolved to. -/
def accessed? : Node → Option VariableRef
  | access _ _ _ ref _ => ref
  | _ => none

/-- The value that a node offers when it stands among the cases of a switch, `missing` for a
default; most nodes offer none. -/
def caseValue? : Node → Option Node
  | case v _ _ | declaration _ _ v _ _ | assignment _ v _ | returning v _ | global _ _ _ v _ _ =>
    some v
  | _ => none

/-- The case with another value. -/
def withCaseValue (value : Node) : Node → Node
  | case _ ss p => case value ss p
  | n => n

mutual

/-- The number of levels of a tree: every child is lower than its parent. -/
def height : Node → Nat
  | missing | bare _ | literal .. => 1
  | group e _ _ | expressionStatement e _ | returning e _ | access _ e _ _ _
  | declaration _ _ e _ _ | global _ _ _ e _ _ => e.height + 1
  | binary _ l r _ _ | assignment l r _ => max l.height r.height + 1
  | call _ ns _ _ _ | listLiteral ns _ _ | function _ _ _ _ ns _ _ => heights ns + 1
  | case e ns _ | switch e ns _ | whileLoop e ns _ => max e.height (heights ns) + 1
  | conditional e ns ms _ => max e.height (max (heights ns) (heights ms)) + 1
  | source ns ms => max (heights ns) (heights ms) + 1

/-- The number of levels of the highest tree. -/
def heights : List Node → Nat
  | [] => 0
  | n :: ns => max n.height (heights ns)

end

end Node

end PlcLang
