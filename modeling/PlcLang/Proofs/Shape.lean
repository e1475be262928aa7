import PlcLang.Grammar.Token
import PlcLang.Node

/-!
# The shape of programs

Which trees are programs. Names are asked for a property `N` only, so that one definition serves
texts that were read and texts that are to be written.

* `IsIdentifier`: the texts that are names.
* `Value.IsLiteral`: the values that have a literal.
* `Node.IsExpression`, `Node.IsStatement`, `Node.IsGlobal`, `Node.IsFunction`, `Node.IsProgram`: the
  trees of each kind.
* `Node.Contains`, `Node.Everywhere`: the trees inside a tree, and what holds of all of them.
* `Node.subtrees`: the same as a list, so that it can be decided.
-/

namespace PlcLang

/-- A letter or `@`, then letters, digits, `_` and `-`, and no keyword. -/
def IsIdentifier (s : String) : Prop :=
  (∃ c cs, s.toList = c :: cs ∧ Grammar.beginsName c = true ∧
    ∀ d ∈ cs, Grammar.continuesName d = true) ∧ s ∉ Grammar.keywords

instance (s : String) : Decidable (IsIdentifier s) :=
  decidable_of_iff ((s.toList.head?.any Grammar.beginsName && s.toList.tail.all Grammar.continuesName) =
    true ∧ s ∉ Grammar.keywords) <| and_congr_left fun _ => by
      cases s.toList with
      | nil => simp
      | cons c cs => simp [and_assoc]

/-- The values that have a literal. -/
inductive Value.IsLiteral : Value → Prop
  | nil : IsLiteral .nil
  | boolean (b : Bool) : IsLiteral (.boolean b)
  | integer (i : Int) : IsLiteral (.integer i)
  | decimal (negative : Bool) (c : Nat) {e : Int} (he : e < 0) :
      IsLiteral (.decimal (.finite negative c e))
  | character (c : Char) : IsLiteral (.character (String.singleton c))
  | string (s : String) : IsLiteral (.string s)

namespace Node

/-- The level of a binary operation, none for other trees. -/
def level? : Node → Option Level
  | binary op .. => op.level?
  | _ => none

variable (N : String → Prop)

/-! ## Expressions -/

/-- The expressions. A binary operation groups to the left, and neither operand is an operation of
a looser level. -/
inductive IsExpression : Node → Prop
  | literal {v t p} : v.IsLiteral → IsExpression (.literal v t p)
  | group {e t p} : IsExpression e → IsExpression (.group e t p)
  | binary {op left right t p} {l : Level} : op.level? = some l →
      IsExpression left → (∀ m, left.level? = some m → l.rank ≤ m.rank) →
      IsExpression right → (∀ m, right.level? = some m → l.rank < m.rank) →
      IsExpression (.binary op left right t p)
  | reference {name t b p} : N name → IsExpression (.access (some name) .missing t b p)
  | item {name offset t b p} : N name → IsExpression offset →
      IsExpression (.access (some name) offset t b p)
  | call {name arguments t b p} : N name → (∀ a ∈ arguments, IsExpression a) →
      IsExpression (.call (some name) arguments t b p)

/-- An expression or nothing. -/
def IsOptional (e : Node) : Prop := e = .missing ∨ e.IsExpression N

/-! ## Statements -/

/-- A case of a switch with its value, its statements and its place. -/
abbrev Arm := Node × List Node × Place

/-- The tree of a case. -/
def ofArm (a : Arm) : Node := .case a.1 a.2.1 a.2.2

/-- The statements. A switch ends with the only case that has no value. -/
inductive IsStatement : Node → Prop
  | expressionStatement {e p} : e.IsExpression N → IsStatement (.expressionStatement e p)
  | declaration {name typeName value b p} : N name → (∀ t, typeName = some t → N t) →
      value.IsOptional N → IsStatement (.declaration (some name) typeName value b p)
  | assignment {receiver value p} : receiver.IsExpression N → value.IsExpression N →
      IsStatement (.assignment receiver value p)
  | conditional {c ss ts p} : c.IsExpression N → (∀ s ∈ ss, IsStatement s) →
      (∀ s ∈ ts, IsStatement s) → IsStatement (.conditional c ss ts p)
  | switch {c ss p q} (arms : List Arm) : c.IsExpression N → (∀ a ∈ arms, a.1.IsExpression N) →
      (∀ a ∈ arms, ∀ s ∈ a.2.1, IsStatement s) → (∀ s ∈ ss, IsStatement s) →
      IsStatement (.switch c (arms.map ofArm ++ [.case .missing ss q]) p)
  | whileLoop {c ss p} : c.IsExpression N → (∀ s ∈ ss, IsStatement s) →
      IsStatement (.whileLoop c ss p)
  | returning {e p} : e.IsExpression N → IsStatement (.returning e p)

/-! ## Programs -/

/-- The globals: lists, variables and constants. -/
inductive IsGlobal : Node → Prop
  | list {name typeName e es t p b q} : N name → N typeName → (∀ a ∈ e :: es, a.IsExpression N) →
      IsGlobal (.global (some name) (some typeName) true (.listLiteral (e :: es) t p) b q)
  | mutable {name typeName value b p} : N name → N typeName → value.IsOptional N →
      IsGlobal (.global (some name) (some typeName) true value b p)
  | immutable {name typeName value b p} : N name → N typeName → value.IsExpression N →
      IsGlobal (.global (some name) (some typeName) false value b p)

/-- The functions; every parameter has a type. -/
inductive IsFunction : Node → Prop
  | function {name returnType ss b p} (parameters : List (String × String)) : N name →
      (∀ x ∈ parameters, N x.1 ∧ N x.2) → (∀ t, returnType = some t → N t) →
      (∀ s ∈ ss, s.IsStatement N) →
      IsFunction (.function (some name) (parameters.map (some ·.1)) (parameters.map (some ·.2))
        returnType ss b p)

/-- The programs: globals, then functions. -/
inductive IsProgram : Node → Prop
  | source {gs fs} : (∀ g ∈ gs, g.IsGlobal N) → (∀ f ∈ fs, f.IsFunction N) →
      IsProgram (.source gs fs)

variable {N}

theorem IsExpression.isPresent {e : Node} (h : e.IsExpression N) : e.isPresent = true := by
  cases h <;> rfl

theorem IsStatement.isPresent {s : Node} (h : s.IsStatement N) : s.isPresent = true := by
  cases h <;> rfl

theorem IsGlobal.isPresent {g : Node} (h : g.IsGlobal N) : g.isPresent = true := by
  cases h <;> rfl

theorem IsFunction.isPresent {f : Node} (h : f.IsFunction N) : f.isPresent = true := by
  cases h
  rfl

theorem IsProgram.isPresent {t : Node} (h : t.IsProgram N) : t.isPresent = true := by
  cases h
  rfl

/-! ## Parts -/

/-- The trees directly below a tree. -/
def children : Node → List Node
  | missing | bare _ | literal .. => []
  | group e _ _ | expressionStatement e _ | returning e _ => [e]
  | binary _ l r _ _ | assignment l r _ => [l, r]
  | access _ offset _ _ _ => [offset]
  | call _ es _ _ _ | listLiteral es _ _ => es
  | declaration _ _ value _ _ | global _ _ _ value _ _ => [value]
  | conditional c ts es _ => c :: (ts ++ es)
  | case value ss _ => value :: ss
  | switch c cs _ => c :: cs
  | whileLoop c ss _ => c :: ss
  | function _ _ _ _ ss _ _ => ss
  | source gs fs => gs ++ fs

/-- A tree contains itself and whatever is below it. -/
inductive Contains (d : Node) : Node → Prop
  | self : Contains d d
  | child {n m} : Contains d n → m ∈ n.children → Contains d m

/-- All trees inside a tree have a property. -/
def Everywhere (P : Node → Prop) (d : Node) : Prop := ∀ n, d.Contains n → P n

theorem Contains.trans {d n m : Node} (h : d.Contains n) (k : n.Contains m) : d.Contains m := by
  induction k with
  | self => exact h
  | child _ hm ih => exact .child ih hm

theorem everywhere_iff {P : Node → Prop} {d : Node} :
    d.Everywhere P ↔ P d ∧ ∀ c ∈ d.children, c.Everywhere P := by
  constructor
  · intro h
    exact ⟨h d .self, fun c hc n hn => h n (Contains.trans (.child .self hc) hn)⟩
  · rintro ⟨hd, hc⟩ n hn
    -- the first step from `d` to `n` decides which child it is
    have hstep : n = d ∨ ∃ c ∈ d.children, c.Contains n := by
      induction hn with
      | self => exact .inl rfl
      | @child n m hn hm ih =>
        rcases ih with rfl | ⟨c, hc, hcn⟩
        · exact .inr ⟨m, hm, .self⟩
        · exact .inr ⟨c, hc, .child hcn hm⟩
    rcases hstep with rfl | ⟨c, hmem, hcn⟩
    · exact hd
    · exact hc c hmem n hcn

/-! ## All parts -/

mutual

/-- All trees inside a tree, in the order of the text. -/
def subtrees : Node → List Node
  | missing => [missing]
  | bare k => [bare k]
  | literal v t p => [literal v t p]
  | group e t p => group e t p :: e.subtrees
  | binary op l r t p => binary op l r t p :: (l.subtrees ++ r.subtrees)
  | access name offset t b p => access name offset t b p :: offset.subtrees
  | call name es t b p => call name es t b p :: allSubtrees es
  | listLiteral es t p => listLiteral es t p :: allSubtrees es
  | expressionStatement e p => expressionStatement e p :: e.subtrees
  | declaration name t value b p => declaration name t value b p :: value.subtrees
  | assignment l r p => assignment l r p :: (l.subtrees ++ r.subtrees)
  | conditional c ts es p => conditional c ts es p :: (c.subtrees ++ (allSubtrees ts ++ allSubtrees es))
  | case value ss p => case value ss p :: (value.subtrees ++ allSubtrees ss)
  | switch c cs p => switch c cs p :: (c.subtrees ++ allSubtrees cs)
  | whileLoop c ss p => whileLoop c ss p :: (c.subtrees ++ allSubtrees ss)
  | returning e p => returning e p :: e.subtrees
  | global name t mutable value b p => global name t mutable value b p :: value.subtrees
  | function name names types t ss b p => function name names types t ss b p :: allSubtrees ss
  | source gs fs => source gs fs :: (allSubtrees gs ++ allSubtrees fs)

/-- All trees inside several trees. -/
def allSubtrees : List Node → List Node
  | [] => []
  | n :: ns => n.subtrees ++ allSubtrees ns

end

theorem allSubtrees_eq (ns : List Node) : allSubtrees ns = ns.flatMap subtrees := by
  induction ns with
  | nil => rfl
  | cons n ns ih => rw [allSubtrees, ih, List.flatMap_cons]

theorem subtrees_eq (n : Node) : n.subtrees = n :: n.children.flatMap subtrees := by
  cases n <;> simp [subtrees, children, allSubtrees_eq]

theorem mem_children_of_caseValue? {n value : Node} (h : n.caseValue? = some value) :
    value ∈ n.children := by
  cases n <;> cases h
  case assignment => exact List.mem_cons_of_mem _ List.mem_cons_self
  all_goals exact List.mem_cons_self

theorem height_pos (n : Node) : 0 < n.height := by
  cases n <;> simp [height]

theorem height_le_heights {ns : List Node} {c : Node} (h : c ∈ ns) : c.height ≤ heights ns := by
  induction ns with
  | nil => cases h
  | cons n ns ih =>
    rw [heights]
    rcases List.mem_cons.mp h with rfl | h
    · exact Nat.le_max_left _ _
    · exact Nat.le_trans (ih h) (Nat.le_max_right _ _)

theorem height_lt_of_mem_children {n c : Node} (h : c ∈ n.children) : c.height < n.height := by
  cases n with
  | missing | bare | literal => cases h
  | group | expressionStatement | returning | access | declaration | global =>
    rw [List.mem_singleton.mp h]
    exact Nat.lt_succ_self _
  | binary _ l r | assignment l r =>
    obtain rfl | rfl : c = l ∨ c = r := by simpa [children] using h
    all_goals
      rw [height]
      omega
  | call | listLiteral | function => exact Nat.lt_succ_of_le (height_le_heights h)
  | conditional =>
    rw [height]
    rcases List.mem_cons.mp h with rfl | h
    · omega
    · rcases List.mem_append.mp h with h | h <;> have hle := height_le_heights h <;> omega
  | source =>
    rw [height]
    rcases List.mem_append.mp h with h | h <;> have hle := height_le_heights h <;> omega
  | case | switch | whileLoop =>
    rw [height]
    rcases List.mem_cons.mp h with rfl | h
    · omega
    · have hle := height_le_heights h
      omega

theorem height_le_of_contains {d n : Node} (h : d.Contains n) : n.height ≤ d.height := by
  induction h with
  | self => exact Nat.le_refl _
  | child _ hm ih => exact Nat.le_trans (Nat.le_of_lt (height_lt_of_mem_children hm)) ih

/-- Nothing below a node is the whole tree. -/
theorem height_lt_of_contains_child {d n c : Node} (h : d.Contains n) (hc : c ∈ n.children) :
    c.height < d.height :=
  Nat.lt_of_lt_of_le (height_lt_of_mem_children hc) (height_le_of_contains h)

/-- What holds of a tree if it holds of the trees directly below it holds of all trees. -/
theorem forall_of_children {P : Node → Prop} (h : ∀ n, (∀ c ∈ n.children, P c) → P n) (n : Node) :
    P n := by
  induction hn : n.height using Nat.strongRecOn generalizing n with
  | _ k ih => exact h n fun c hc => ih _ (hn ▸ height_lt_of_mem_children hc) c rfl

/-- Every tree inside a tree is one of its subtrees, and nothing else is. -/
theorem mem_subtrees {d n : Node} : n ∈ d.subtrees ↔ d.Contains n := by
  constructor
  · intro h
    induction hd : d.height using Nat.strongRecOn generalizing d with
    | _ k ih =>
      rw [subtrees_eq] at h
      rcases List.mem_cons.mp h with rfl | h
      · exact .self
      · obtain ⟨c, hc, hn⟩ := List.mem_flatMap.mp h
        exact Contains.trans (.child .self hc) (ih _ (hd ▸ height_lt_of_mem_children hc) hn rfl)
  · intro h
    have hsubset : n.subtrees ⊆ d.subtrees := by
      induction h with
      | self => exact List.Subset.refl _
      | @child n m _ hm ih =>
        refine List.Subset.trans (fun x hx => ?_) ih
        rw [subtrees_eq n]
        exact List.mem_cons_of_mem _ (List.mem_flatMap.mpr ⟨m, hm, hx⟩)
    refine hsubset ?_
    rw [subtrees_eq]
    exact List.mem_cons_self

instance {P : Node → Prop} [DecidablePred P] (d : Node) : Decidable (d.Everywhere P) :=
  decidable_of_iff (∀ n ∈ d.subtrees, P n) (forall_congr' fun _ => imp_congr mem_subtrees Iff.rfl)

end Node

end PlcLang
