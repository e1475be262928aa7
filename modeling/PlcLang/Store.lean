import PlcLang.Fault
import PlcLang.Node

/-!
# Scopes and the store

A scope binds names to variables, and names together with a number of parameters to functions. All
scopes and lists of a session live in one store and are referred to by number. Which scopes are
visible is an environment: the active scope and the scopes around it.

* `Store.findVariable?`, `Store.findFunction?`: the innermost binding of a name.
* `Store.defineVariable`, `Store.defineFunction`: a new binding in the active scope, refused if
  there is one already.
-/

namespace PlcLang

/-- A variable binding. -/
structure Variable where
  name : Name
  type : Ty := .any
  /-- The variable may be assigned to; a tree that was built by hand may leave it open. -/
  mutable : Option Bool := some true
  value : Value := .nil
  /-- Where the binding was made. -/
  origin : Place := .unknown
  deriving DecidableEq, Inhabited

/-- The variable may be assigned to. -/
def Variable.isMutable (v : Variable) : Bool := v.mutable.getD false

/-- A function binding; the body, if there is one, is of type `β`. -/
structure Function (β : Type) where
  name : Name
  parameterTypes : List Ty := []
  returnType : Ty := .nil
  body : Option β := none
  /-- Where the binding was made. -/
  origin : Place := .unknown
  deriving Inhabited

namespace Function

variable {β : Type}

/-- The number of parameters. -/
def arity (f : Function β) : Nat := f.parameterTypes.length

/-- The body that a call with the given number of arguments runs. -/
def bodyFor (f : Function β) (received : Nat) : Except Fault β :=
  match f.body with
  | none => .error (.bodyless f.name)
  | some body =>
    if received = f.arity then .ok body else .error (.argumentCount f.name f.arity received)

end Function

/-- The bindings of a scope, in the order in which they were made. -/
structure Scope (β : Type) where
  «variables» : List Variable := []
  functions : List (Function β) := []
  deriving Inhabited

namespace Scope

variable {β : Type}

/-- The variable of a name. -/
def variableNamed? (s : Scope β) (name : Name) : Option Variable :=
  s.variables.find? (·.name = name)

/-- The function of a name and a number of parameters. -/
def functionNamed? (s : Scope β) (name : Name) (arity : Nat) : Option (Function β) :=
  s.functions.find? fun f => f.name = name && f.arity = arity

end Scope

/-- The active scope and the scopes around it, from the inside out. -/
structure Env where
  scope : ScopeId
  outer : List ScopeId := []
  deriving DecidableEq, Inhabited

/-- All visible scopes, the active one first. -/
def Env.visible (env : Env) : List ScopeId := env.scope :: env.outer

/-- All scopes and lists, each by its number. -/
structure Store (β : Type) where
  scopes : Array (Scope β) := #[]
  lists : Array (Array Value) := #[]
  deriving Inhabited

namespace Store

variable {β : Type}

/-! ## Scopes -/

/-- The scope of a number. -/
def scope (s : Store β) (id : ScopeId) : Scope β := s.scopes.getD id {}

/-- Changes one scope. -/
def modifyScope (s : Store β) (id : ScopeId) (f : Scope β → Scope β) : Store β :=
  { s with scopes := s.scopes.modify id f }

/-- A new scope without a scope around it. -/
def root (s : Store β) : Env × Store β :=
  ({ scope := s.scopes.size }, { s with scopes := s.scopes.push {} })

/-- A new scope inside the active one. -/
def child (s : Store β) (env : Env) : Env × Store β :=
  ({ scope := s.scopes.size, outer := env.visible }, { s with scopes := s.scopes.push {} })

/-! ## Variables -/

/-- The variable that a reference denotes. -/
def variableAt? (s : Store β) (ref : VariableRef) : Option Variable :=
  (s.scope ref.scope).variableNamed? ref.name

/-- The innermost visible variable of a name. -/
def findVariable? (s : Store β) (env : Env) (name : Name) : Option (VariableRef × Variable) :=
  env.visible.findSome? fun id => ((s.scope id).variableNamed? name).map (⟨id, name⟩, ·)

/-- Looks a variable up. -/
def lookupVariable (env : Env) (name : Name) : EStateM Fault (Store β) (VariableRef × Variable) :=
  fun s =>
    match s.findVariable? env name with
    | some found => .ok found s
    | none => .error (.undeclaredVariable name) s

/-- Adds a variable to the active scope, unless that has one of the same name. -/
def defineVariable (env : Env) (v : Variable) : EStateM Fault (Store β) VariableRef := fun s =>
  if ((s.scope env.scope).variableNamed? v.name).isSome then .error (.duplicateVariable v.name) s
  else
    .ok ⟨env.scope, v.name⟩
      (s.modifyScope env.scope fun sc => { sc with «variables» := sc.variables ++ [v] })

/-- A variable with another value. -/
def setVariable (s : Store β) (ref : VariableRef) (value : Value) : Store β :=
  s.modifyScope ref.scope fun sc =>
    { sc with «variables» :=
        sc.variables.map fun v => if v.name = ref.name then { v with value } else v }

/-! ## Functions -/

/-- The function that a reference denotes. -/
def functionAt? (s : Store β) (ref : FunctionRef) : Option (Function β) :=
  (s.scope ref.scope).functionNamed? ref.name ref.arity

/-- The innermost visible function of a name and a number of parameters. -/
def findFunction? (s : Store β) (env : Env) (name : Name) (arity : Nat) :
    Option (FunctionRef × Function β) :=
  env.visible.findSome? fun id =>
    ((s.scope id).functionNamed? name arity).map (⟨id, name, arity⟩, ·)

/-- Looks a function up. -/
def lookupFunction (env : Env) (name : Name) (arity : Nat) :
    EStateM Fault (Store β) (FunctionRef × Function β) :=
  fun s =>
    match s.findFunction? env name arity with
    | some found => .ok found s
    | none => .error (.undeclaredFunction name arity) s

/-- Adds a function to the active scope, unless that has one of the same name and number of
parameters. -/
def defineFunction (env : Env) (f : Function β) : EStateM Fault (Store β) FunctionRef := fun s =>
  if ((s.scope env.scope).functionNamed? f.name f.arity).isSome then
    .error (.duplicateFunction f.name f.arity) s
  else
    .ok ⟨env.scope, f.name, f.arity⟩
      (s.modifyScope env.scope fun sc => { sc with functions := sc.functions ++ [f] })

/-! ## Lists -/

/-- The items of a list. -/
def list (s : Store β) (id : ListId) : Array Value := s.lists.getD id #[]

/-- A new list. -/
def newList (s : Store β) (items : Array Value) : ListId × Store β :=
  (s.lists.size, { s with lists := s.lists.push items })

/-- A list with another item. -/
def setItem (s : Store β) (id : ListId) (index : Nat) (value : Value) : Store β :=
  { s with lists := s.lists.modify id (·.setIfInBounds index value) }

end Store

end PlcLang
