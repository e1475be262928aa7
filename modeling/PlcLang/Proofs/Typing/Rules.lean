import Mathlib.Data.List.Forall2
import PlcLang.Number.Word
import PlcLang.Operator
import PlcLang.Store

/-!
# Typing rules

When a program is well typed, and which types and bindings its tree then has. The rules speak of
nested scopes and of nothing that changes. Scopes are numbered in the order in which they open, the
program's own scope first, so a binding is known by the number of its scope and its name. A table `S`
lists the bindings of all scopes under these numbers.

* `Context`: the visible scopes; `SeesVariable`, `SeesFunction`: what a name means there.
* `HasType`: expressions. `Checks`: the statements of a block.
* `ChecksGlobals`, `ChecksFunctions`, `Node.WellTyped`: programs.
-/

namespace PlcLang.Typing

/-! ## Contexts -/

/-- A scope with its number. -/
structure Frame where
  id : ScopeId
  /-- What the scope binds. -/
  scope : Scope Unit := {}

/-- The visible scopes, from the inside out. -/
abbrev Context := List Frame

namespace Frame

/-- The scope has no variable of that name. -/
def LacksVariable (φ : Frame) (name : Name) : Prop := ∀ v ∈ φ.scope.variables, v.name ≠ name

/-- The scope has no function of that name and number of parameters. -/
def LacksFunction (φ : Frame) (name : Name) (arity : Nat) : Prop :=
  ∀ f ∈ φ.scope.functions, ¬ (f.name = name ∧ f.arity = arity)

/-- The scope with one more variable. -/
def withVariable (φ : Frame) (v : Variable) : Frame :=
  { φ with scope := { φ.scope with «variables» := φ.scope.variables ++ [v] } }

/-- The scope with one more function. -/
def withFunction (φ : Frame) (f : Function Unit) : Frame :=
  { φ with scope := { φ.scope with functions := φ.scope.functions ++ [f] } }

end Frame

/-- The variable that a name means: that of the innermost scope which has one. -/
inductive SeesVariable (name : Name) : Context → VariableRef → Variable → Prop
  | here {φ Γ v} : v ∈ φ.scope.variables → v.name = name →
      SeesVariable name (φ :: Γ) ⟨φ.id, name⟩ v
  | outside {φ Γ ref v} : φ.LacksVariable name → SeesVariable name Γ ref v →
      SeesVariable name (φ :: Γ) ref v

/-- The function that a name and a number of arguments mean. -/
inductive SeesFunction (name : Name) (arity : Nat) :
    Context → FunctionRef → Function Unit → Prop
  | here {φ Γ f} : f ∈ φ.scope.functions → f.name = name → f.arity = arity →
      SeesFunction name arity (φ :: Γ) ⟨φ.id, name, arity⟩ f
  | outside {φ Γ ref f} : φ.LacksFunction name arity → SeesFunction name arity Γ ref f →
      SeesFunction name arity (φ :: Γ) ref f

/-! ## Expressions -/

/-- The type of a literal. Integers have to fit 32 bits, decimals have to be finite as doubles. -/
inductive LiteralType : Value → Ty → Prop
  | nil : LiteralType .nil .nil
  | boolean (b : Bool) : LiteralType (.boolean b) .boolean
  | integer {i : Int} : Word.InRange i → LiteralType (.integer i) .integer
  | decimal {negative c e} : (Double.ofDecimal (.finite negative c e)).isFinite = true →
      LiteralType (.decimal (.finite negative c e)) .decimal
  | character (s : String) : LiteralType (.character s) .character
  | string (s : String) : LiteralType (.string s) .string

/-- The type of an operation on operands of given types. -/
inductive OperatorType : Operator → Ty → Ty → Ty → Prop
  | logical {op} : op.level? = some .logical → OperatorType op .boolean .boolean .boolean
  | comparison {op σ} : op.level? = some .comparison → Ty.comparable.Accepts σ →
      OperatorType op σ σ .boolean
  | concatenation {σ τ} : σ = .string ∨ τ = .string → OperatorType .plus σ τ .string
  | arithmetic {op σ} : op = .plus ∨ op = .minus ∨ op = .times ∨ op = .divide →
      σ = .integer ∨ σ = .decimal → OperatorType op σ σ σ
  | power {σ} : σ = .integer ∨ σ = .decimal → OperatorType .power σ .integer σ

/-- An expression, the same with its slots filled, and its type. -/
structure Typed where
  /-- The expression. -/
  plain : Node
  /-- The expression with its slots filled. -/
  filled : Node
  type : Ty

/-- An expression has a type, and with the types and bindings of all its parts it is `e'`. -/
inductive HasType (Γ : Context) : (e e' : Node) → Ty → Prop
  | literal {v t p τ} : LiteralType v τ → HasType Γ (.literal v t p) (.literal v (some τ) p) τ
  | group {e e' t p τ} : e.isBinary = true → HasType Γ e e' τ →
      HasType Γ (.group e t p) (.group e' (some τ) p) τ
  | binary {op left left' right right' t p ρ σ τ} :
      HasType Γ left left' ρ → HasType Γ right right' σ → OperatorType op ρ σ τ →
      HasType Γ (.binary op left right t p) (.binary op left' right' (some τ) p) τ
  | reference {name t b p ref v} : SeesVariable name Γ ref v →
      HasType Γ (.access name .missing t b p) (.access name .missing (some v.type) (some ref) p)
        v.type
  | item {name offset offset' t b p ref v} : SeesVariable name Γ ref v →
      HasType Γ offset offset' .integer →
      HasType Γ (.access name offset t b p) (.access name offset' (some v.type) (some ref) p)
        v.type
  | call {name t b p ref f} (as : List Typed) : SeesFunction name as.length Γ ref f →
      (∀ a ∈ as, HasType Γ a.plain a.filled a.type) →
      List.Forall₂ Ty.Accepts f.parameterTypes (as.map Typed.type) →
      HasType Γ (.call name (as.map Typed.plain) t b p)
        (.call name (as.map Typed.filled) (some f.returnType) (some ref) p) f.returnType
  | list {t p} (a : Typed) (as : List Typed) :
      (∀ x ∈ a :: as, HasType Γ x.plain x.filled x.type) →
      (∀ x ∈ a :: as, a.type.Accepts x.type) →
      HasType Γ (.listLiteral ((a :: as).map Typed.plain) t p)
        (.listLiteral ((a :: as).map Typed.filled) (some a.type) p) a.type

/-- A new variable has a type: the one that is named, which has to accept the value if there is
one, or else that of the value. -/
inductive Initial (Γ : Context) : (typeName : Name) → (value value' : Node) → Ty → Prop
  | inferred {e e' τ} : HasType Γ e e' τ → Initial Γ none e e' τ
  | named (τ : Ty) : Initial Γ (some τ.name) .missing .missing τ
  | checked {e e' σ} (τ : Ty) : HasType Γ e e' σ → τ.Accepts σ → Initial Γ (some τ.name) e e' τ

/-! ## Statements -/

/-- A case of a switch, the same with its slots filled, and the numbers of the scopes that open in
it: the first one, and the one after the last. -/
structure TypedCase where
  /-- The value, `missing` for the default. -/
  value : Node
  block : List Node
  /-- The value with its slots filled. -/
  value' : Node
  /-- The statements with their slots filled. -/
  block' : List Node
  place : Place
  /-- The number of its scope. -/
  first : ScopeId
  /-- The number of the next scope after it. -/
  next : ScopeId

namespace TypedCase

/-- The tree of the case. -/
def plain (k : TypedCase) : Node := .case k.value k.block k.place

/-- The tree with its slots filled. -/
def filled (k : TypedCase) : Node := .case k.value' k.block' k.place

/-- Each case opens its scopes where the one before it ends. -/
def Numbered (n : ScopeId) : List TypedCase → ScopeId → Prop
  | [], m => n = m
  | k :: ks, m => k.first = n ∧ Numbered k.next ks m

end TypedCase

/-- The statements of a block are well typed where a function returns `R`. The first scope that
they open has number `n`, the next one after them number `m`. A declaration is visible to the
statements behind it. -/
inductive Checks (S : Store Unit) (R : Ty) :
    Context → (n : ScopeId) → (ss ss' : List Node) → (m : ScopeId) → Prop
  | nil {Γ n} : Checks S R Γ n [] [] n
  | expressionStatement {Γ n e e' p τ ss ss' m} : e.isCall = true → HasType Γ e e' τ →
      Checks S R Γ n ss ss' m →
      Checks S R Γ n (.expressionStatement e p :: ss) (.expressionStatement e' p :: ss') m
  | declaration {φ Γ n name typeName value value' b p τ ss ss' m} :
      Initial (φ :: Γ) typeName value value' τ → φ.LacksVariable name →
      S.variableAt? ⟨φ.id, name⟩ = some { name, type := τ, origin := p } →
      Checks S R (φ.withVariable { name, type := τ, origin := p } :: Γ) n ss ss' m →
      Checks S R (φ :: Γ) n (.declaration name typeName value b p :: ss)
        (.declaration name typeName value' (some ⟨φ.id, name⟩) p :: ss') m
  | assignment {Γ n name offset t b q receiver' value value' p ref v σ τ ss ss' m} :
      SeesVariable name Γ ref v → v.isMutable = true →
      HasType Γ (.access name offset t b q) receiver' τ → HasType Γ value value' σ →
      τ.Accepts σ → Checks S R Γ n ss ss' m →
      Checks S R Γ n (.assignment (.access name offset t b q) value p :: ss)
        (.assignment receiver' value' p :: ss') m
  | conditional {Γ n c c' s ts s' ts' es es' p k l ss ss' m} : HasType Γ c c' .boolean →
      Checks S R (⟨n, {}⟩ :: Γ) (n + 1) (s :: ts) (s' :: ts') k →
      Checks S R (⟨k, {}⟩ :: Γ) (k + 1) es es' l → Checks S R Γ l ss ss' m →
      Checks S R Γ n (.conditional c (s :: ts) es p :: ss) (.conditional c' (s' :: ts') es' p :: ss')
        m
  | switch {Γ n c c' p τ l ss ss' m} (ks : List TypedCase) (default : TypedCase) :
      HasType Γ c c' τ →
      (∀ k ∈ ks, ∃ σ, HasType Γ k.value k.value' σ ∧ τ.Accepts σ) →
      default.value = .missing → default.value' = .missing →
      (∀ k ∈ ks ++ [default],
        Checks S R (⟨k.first, {}⟩ :: Γ) (k.first + 1) k.block k.block' k.next) →
      TypedCase.Numbered n (ks ++ [default]) l → Checks S R Γ l ss ss' m →
      Checks S R Γ n (.switch c ((ks ++ [default]).map TypedCase.plain) p :: ss)
        (.switch c' ((ks ++ [default]).map TypedCase.filled) p :: ss') m
  | whileLoop {Γ n c c' ts ts' p k ss ss' m} : HasType Γ c c' .boolean →
      Checks S R (⟨n, {}⟩ :: Γ) (n + 1) ts ts' k → Checks S R Γ k ss ss' m →
      Checks S R Γ n (.whileLoop c ts p :: ss) (.whileLoop c' ts' p :: ss') m
  | returning {Γ n e e' p τ ss ss' m} : HasType Γ e e' τ → R.Accepts τ →
      Checks S R Γ n ss ss' m →
      Checks S R Γ n (.returning e p :: ss) (.returning e' p :: ss') m

/-! ## Programs -/

/-- The globals are well typed in the program's scope, which becomes `ψ`. -/
inductive ChecksGlobals (S : Store Unit) : Frame → (gs gs' : List Node) → (ψ : Frame) → Prop
  | nil {φ} : ChecksGlobals S φ [] [] φ
  | global {φ name typeName mutable value value' b p τ gs gs' ψ} :
      Initial [φ] typeName value value' τ → φ.LacksVariable name →
      S.variableAt? ⟨φ.id, name⟩ = some { name, type := τ, mutable, origin := p } →
      ChecksGlobals S (φ.withVariable { name, type := τ, mutable, origin := p }) gs gs' ψ →
      ChecksGlobals S φ (.global name typeName mutable value b p :: gs)
        (.global name typeName mutable value' (some ⟨φ.id, name⟩) p :: gs') ψ

/-- What a function returns: nothing if no type is named. -/
inductive ReturnType : Name → Ty → Prop
  | none : ReturnType none .nil
  | named (τ : Ty) : ReturnType (some τ.name) τ

/-- The variables that parameters are. -/
def parameterVariables (place : Place) (names : List Name) (types : List Ty) : List Variable :=
  List.zipWith (fun name type => { name, type, origin := place }) names types

/-- The functions are well typed in the program's scope, which becomes `ψ`. A function is visible in
its own body and in the functions behind it. -/
inductive ChecksFunctions (S : Store Unit) :
    Frame → (n : ScopeId) → (fs fs' : List Node) → (ψ : Frame) → Prop
  | nil {φ n} : ChecksFunctions S φ n [] [] φ
  | function {φ n name parameters types returnName R ss ss' b p m fs fs' ψ} :
      parameters.length = types.length → ReturnType returnName R →
      φ.LacksFunction name types.length → parameters.Nodup →
      S.functionAt? ⟨φ.id, name, types.length⟩ =
        some { name, parameterTypes := types, returnType := R, origin := p } →
      (∀ v ∈ parameterVariables p parameters types, S.variableAt? ⟨n, v.name⟩ = some v) →
      Checks S R
        [⟨n, { «variables» := parameterVariables p parameters types }⟩,
          φ.withFunction { name, parameterTypes := types, returnType := R, origin := p }]
        (n + 1) ss ss' m →
      ChecksFunctions S
        (φ.withFunction { name, parameterTypes := types, returnType := R, origin := p }) m fs fs'
        ψ →
      ChecksFunctions S φ n
        (.function name parameters (types.map (some ·.name)) returnName ss b p :: fs)
        (.function name parameters (types.map (some ·.name)) returnName ss'
          (some ⟨φ.id, name, types.length⟩) p :: fs') ψ

/-- The program's scope before anything is defined. -/
def builtins : Frame :=
  ⟨0, { functions :=
      [{ name := "print", parameterTypes := [.any], returnType := .nil, body := some () }] }⟩

end Typing

open Typing in
/-- A program is well typed, and with the types and bindings of all its parts it is `d`. There is a
function `main` without parameters that returns an integer. -/
inductive Node.WellTyped (S : Store Unit) : (t d : Node) → Prop
  | source {gs gs' fs fs' φ ψ ref f} :
      (∀ g ∈ builtins.scope.functions, S.functionAt? ⟨0, g.name, g.arity⟩ = some g) →
      ChecksGlobals S builtins gs gs' φ →
      ChecksFunctions S φ 1 fs fs' ψ → SeesFunction "main" 0 [ψ] ref f →
      Ty.integer.Accepts f.returnType → WellTyped S (.source gs fs) (.source gs' fs')

end PlcLang
