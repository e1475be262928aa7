import PlcLang.Proofs.Binders
import PlcLang.Proofs.Evaluation.Operable
import PlcLang.Proofs.Evaluation.World

/-!
# What is promised of a run

The promises that a run keeps at every node, for any discipline whose operations on values respect
it. A run promises the same of every part of the tree, so each construct is treated by itself.

* `Discipline.Lawful`: what the operations on values, and the nodes that are allowed, have to satisfy.
* `Node.Resolves`: what a run finds was made where the analysis says.
* `Kept`, `Passed`, `Between`: the states after an expression, after a statement and after a part of
  the program.
* `Sound`: the promises for every kind of node.
-/

namespace PlcLang

namespace Run

open Typing

/-! ## Laws -/

/-- Items of lists can be accessed and replaced. -/
structure Discipline.Indexes (D : Discipline) : Prop where
  /-- A value may be no list, and a list may lack an item. -/
  fails {e : Stop} : e.SparesNames → D.fails e
  /-- A list of a type has items of this type. -/
  item {Λ : List Ty} {τ : Ty} {id : ListId} {v : Value} : D.holds Λ τ (.list id) →
    (∀ σ, Λ[id]? = some σ → D.holds Λ σ v) → D.holds Λ τ v

/-- The discipline can be kept by the runs of `d`. -/
structure Discipline.Lawful (D : Discipline) (d : Node) : Prop where
  /-- Only the nodes of `d` matter. -/
  contains {n : Node} : D.allows n → d.Contains n
  /-- A run may be cut off. -/
  unfinished : D.fails .unfinished
  /-- It does not matter to which node a fault is attached. -/
  attach (n : Node) {e : Located Fault} : D.fails (.fault e) → D.fails (.fault (e.attach n))
  /-- More lists do no harm. -/
  mono {Λ Λ' : List Ty} {τ : Ty} {v : Value} : Λ <+: Λ' → D.holds Λ τ v → D.holds Λ' τ v
  /-- A value has every type that accepts its type. -/
  accepts {Λ : List Ty} {τ σ : Ty} {v : Value} : τ.Accepts σ → D.holds Λ σ v → D.holds Λ τ v
  literal {Λ : List Ty} {v : Value} {τ : Ty} : LiteralType v τ → D.holds Λ τ v
  requireBoolean {Λ : List Ty} {v : Value} {s : State Body String} : D.holds Λ .boolean v →
    Ends D.fails (requireBoolean v) s fun _ s' => s' = s
  /-- All operations but the logical ones can be applied to operands of their types. -/
  operate {Λ : List Ty} {op : Operator} {left right : Node} {t : Option Ty} {p : Place} {ρ σ τ : Ty}
    {l r : Value} {s : State Body String} : D.allows (.binary op left right t p) →
    left.type? = some ρ → right.type? = some σ → OperatorType op ρ σ τ → op.level? ≠ some .logical →
    D.holds Λ ρ l → D.holds Λ σ r →
    Ends D.fails (operate op l r) s fun v s' => D.holds Λ τ v ∧ s' = s
  equal {Λ : List Ty} {σ τ : Ty} {l r : Value} {s : State Body String} : D.holds Λ σ l →
    D.holds Λ τ r → Ends D.fails (equal l r) s fun _ s' => s' = s
  textOf {Λ : List Ty} {τ : Ty} {v : Value} {s : State Body String} : D.holds Λ τ v →
    Ends D.fails (textOf v) s fun _ s' => s' = s
  /-- A declaration without a value has a type that does not need one. -/
  declaration {name : Name} {τ : Ty} {b : Option VariableRef} {p : Place} :
    D.allows (.declaration name (some τ.name) .missing b p) → ∀ Λ, D.holds Λ τ .nil
  /-- So has a global. -/
  global {name : Name} {τ : Ty} {mutable : Option Bool} {b : Option VariableRef} {p : Place} :
    D.allows (.global name (some τ.name) mutable .missing b p) → ∀ Λ, D.holds Λ τ .nil
  /-- The end of a function is not reached, or the function need not return anything. -/
  complete {name : Name} {names types : List Name} {returnName : Name} {ss : List Node}
    {b : Option FunctionRef} {p : Place} {R : Ty} :
    D.allows (.function name names types returnName ss b p) → ReturnType returnName R →
    EndsInReturn ss ∨ ∀ Λ, D.holds Λ R .nil
  /-- A new list has the type of its items. -/
  list {Λ : List Ty} {es : List Node} {τ : Ty} {p : Place} : D.allows (.listLiteral es (some τ) p) →
    D.holds (Λ ++ [τ]) τ (.list Λ.length)
  /-- If the program accesses items of lists, it can. -/
  item {name : Name} {offset : Node} {t : Option Ty} {b : Option VariableRef} {p : Place} :
    D.allows (.access name offset t b p) → offset.isPresent = true → D.Indexes
  /-- What is stored in a list through a variable has the type of the list. -/
  setItem {Λ : List Ty} {name : Name} {offset value : Node} {τ σ : Ty} {b : Option VariableRef}
    {p q : Place} {id : ListId} {v : Value} :
    D.allows (.assignment (.access name offset (some τ) b p) value q) → offset.isPresent = true →
    D.holds Λ τ (.list id) → D.holds Λ τ v → Λ[id]? = some σ → D.holds Λ σ v

end Run

/-! ## Promises -/

open Typing in
/-- Where the node looks up a name in the state `s`, it finds what a binder of `d` has made, and this is
the binder of what the node was resolved to. -/
def Node.Resolves (S : Store Unit) (d : Node) (s : State Body String) : Node → Prop
  | .access name _ _ b _ | .assignment (.access name _ _ b _) _ _ =>
    ∃ ref v m found u, b = some ref ∧ S.variableAt? ref = some v ∧ m ∈ d.binders ∧
      m.Creates ref v ∧ s.store.findVariable? s.env name = some (found, u) ∧ u.name = v.name ∧
      u.origin = m.place
  | .call name arguments _ b _ =>
    ∃ ref f found g, b = some ref ∧ S.functionAt? ref = some f ∧
      s.store.findFunction? s.env name arguments.length = some (found, g) ∧
      (f ∈ builtins.scope.functions ∧ g.body = some .print ∨
        ∃ m, m ∈ d.binders ∧ m.CreatesFunction ref f ∧ g.name = f.name ∧ g.arity = f.arity ∧
          g.origin = m.place)
  | _ => True

namespace Run

open Typing

variable (D : Discipline) (S : Store Unit) (d : Node)

/-- The binding of the node is right, and its value has the type that the node was given. -/
def Checked (depth : Nat) (n : Node) (s : State Body String) : Prop :=
  Node.Resolves S d s n ∧
    ∀ τ v s', n.type? = some τ → visit depth n s = .ok v s' → ∃ Λ, D.holds Λ τ v

/-- After an expression the same is visible, in a world that has grown, and something is true of its
lists. -/
def Kept (w : World) (Γ : Context) (s s' : State Body String) (P : List Ty → Prop) : Prop :=
  s'.env = s.env ∧ ∃ w', w.Grows w' ∧ Stands D S d w' s' Γ ∧ P w'.lists

/-- After a statement the active scope may have changed. -/
def Passed (w : World) (Γ : Context) (s s' : State Body String) (ψ : Frame) (P : List Ty → Prop) :
    Prop :=
  s'.env = s.env ∧ ∃ w', w.GrowsOff s.env.scope w' ∧ Stands D S d w' s' (ψ :: Γ) ∧ P w'.lists

/-- Between the parts of a program only its own scope is visible, and all its functions are known. -/
structure Between (w : World) (s : State Body String) (φ : Frame) : Prop where
  /-- The functions are those of the program's scope. -/
  functions : w.functions = φ.scope.functions
  /-- The program's scope is visible. -/
  stands : Stands D S d w s [φ]

/-- A statement makes its function return a value of the right type, or else something is known. -/
def Leaves (R : Ty) (v : Value) (otherwise : Prop) (Λ : List Ty) : Prop :=
  (∃ r, v = .returned r ∧ D.holds Λ R r) ∨ (∀ r, v ≠ .returned r) ∧ otherwise

/-- The promises for every kind of node, of an evaluation `V` and its guarded form `G`. -/
structure Sound (V G : Node → Run Value) : Prop where
  /-- An expression has a value of its type. -/
  expression {Γ : Context} {e e' : Node} {τ : Ty} {w : World} {s : State Body String} :
    HasType Γ e e' τ → e'.Everywhere D.allows → Stands D S d w s Γ →
    Agrees D.fails (V e') (G e') s fun v s' => Kept D S d w Γ s s' (D.holds · τ v)
  /-- After a statement the remaining ones are still well typed. -/
  statement {R : Ty} {φ : Frame} {Γ : Context} {n m : ScopeId} {a a' : Node} {ss ss' : List Node}
    {w : World} {s : State Body String} : Γ ≠ [] →
    Checks S R (φ :: Γ) n (a :: ss) (a' :: ss') m → a'.Everywhere D.allows →
    Stands D S d w s (φ :: Γ) →
    Agrees D.fails (V a') (G a') s fun v s' => ∃ ψ, Passed D S d w Γ s s' ψ
      (Leaves D R v ((∀ e p, a' ≠ .returning e p) ∧ ∃ k, Checks S R (ψ :: Γ) k ss ss' m))
  /-- The statements of a case are run in a scope of their own. -/
  case {R : Ty} {Γ : Context} {k : TypedCase} {w : World} {s : State Body String} :
    Checks S R (⟨k.first, {}⟩ :: Γ) (k.first + 1) k.block k.block' k.next →
    k.filled.Everywhere D.allows → Stands D S d w s Γ →
    Agrees D.fails (V k.filled) (G k.filled) s fun v s' => Kept D S d w Γ s s' (Leaves D R v True)
  /-- After a global the remaining ones are still well typed. -/
  global {φ ψ : Frame} {g g' : Node} {gs gs' : List Node} {w : World} {s : State Body String} :
    ChecksGlobals S φ (g :: gs) (g' :: gs') ψ → g'.Everywhere D.allows →
    (∀ f ∈ w.functions, f.body ≠ none) → Between D S d w s φ →
    Agrees D.fails (V g') (G g') s fun _ s' => ∃ χ w', w'.functions = w.functions ∧
      Between D S d w' s' χ ∧ ChecksGlobals S χ gs gs' ψ
  /-- After a function the remaining ones are still well typed. -/
  function {φ ψ : Frame} {n : ScopeId} {f f' : Node} {fs fs' : List Node} {w : World}
    {s : State Body String} : ChecksFunctions S φ n (f :: fs) (f' :: fs') ψ →
    f'.Everywhere D.allows → Between D S d w s φ →
    Agrees D.fails (V f') (G f') s fun _ s' => ∃ χ k w', Between D S d w' s' χ ∧
      ChecksFunctions S χ k fs fs' ψ

end Run

end PlcLang
