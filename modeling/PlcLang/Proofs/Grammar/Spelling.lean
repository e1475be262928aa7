import PlcLang.Grammar.Statement
import PlcLang.Proofs.Grammar.Lexeme

/-!
# The grammar

Which lexemes spell which tree. Every node stands where its first lexeme stands, and no slot of it
is filled. Names have to satisfy a property `N`, as in the shape of programs.

* `Spells`: expressions, level by level.
* `SpellsStatement`, `SpellsGlobal`, `SpellsFunction`, `SpellsProgram`: the other trees.
* `Spells.isExpression`, …, `SpellsProgram.isProgram`: what is spelled has the shape of a program.
-/

namespace PlcLang

namespace Level

/-- The next tighter level, none if operands come next. -/
def tighter? : Level → Option Level
  | logical => some comparison
  | comparison => some additive
  | additive => some multiplicative
  | multiplicative => none

/-- The operators of the level, in the order in which they are tried. -/
def operators : Level → List Operator
  | logical => [.and, .or]
  | comparison => [.equal, .unequal, .less, .greater]
  | additive => [.plus, .minus]
  | multiplicative => [.times, .divide, .power]

theorem mem_operators {l : Level} {op : Operator} : op ∈ l.operators ↔ op.level? = some l := by
  cases l <;> cases op <;> simp [operators, Operator.level?]

end Level

namespace Grammar

theorem symbol_mem_marks {op : Operator} {l : Level} (h : op.level? = some l) :
    op.symbol ∈ marks := by
  cases op with
  | other => cases h
  | _ => decide

/-! ## Sequences -/

/-- A tree with its lexemes. -/
abbrev Spelled := Node × List Lexeme

/-- Items, each after a comma. -/
inductive AfterCommas : (items : List (List Lexeme)) → List Lexeme → Prop
  | nil : AfterCommas [] []
  | cons {ls items rest} (p : Place) : AfterCommas items rest →
      AfterCommas (ls :: items) (⟨.mark ",", p⟩ :: ls ++ rest)

/-- Items with commas between them; one more may stand before the first item. -/
inductive PerhapsSeparated : (items : List (List Lexeme)) → List Lexeme → Prop
  | leading {items ls} : AfterCommas items ls → PerhapsSeparated items ls
  | plain {ls items rest} : AfterCommas items rest → PerhapsSeparated (ls :: items) (ls ++ rest)

/-- What is related to something item by item comes from a list of such things. -/
theorem exists_eq_map {α β : Type} {f : α → β} {P : α → Prop} {bs : List β}
    (h : ∀ b ∈ bs, ∃ a, b = f a ∧ P a) : ∃ as : List α, bs = as.map f ∧ ∀ a ∈ as, P a := by
  induction bs with
  | nil => exact ⟨[], rfl, nofun⟩
  | cons b bs ih =>
    obtain ⟨⟨a, rfl, ha⟩, hbs⟩ := List.forall_mem_cons.mp h
    obtain ⟨as, rfl, has⟩ := ih hbs
    exact ⟨a :: as, rfl, List.forall_mem_cons.mpr ⟨ha, has⟩⟩

/-! ## Expressions -/

/-- An operator with its right operand. -/
structure Operation where
  operator : Operator
  /-- Where it stands. -/
  place : Place
  operand : Spelled

/-- The operator and what spells its operand. -/
def Operation.lexemes (o : Operation) : List Lexeme :=
  ⟨.mark o.operator.symbol, o.place⟩ :: o.operand.2

/-- The operator and the operand, with what spells them. -/
abbrev Operation.spelled (o : Operation) : (Operator × Node) × List Lexeme :=
  ((o.operator, o.operand.1), o.lexemes)

variable (N : String → Prop)

/-- Lexemes that spell an expression: an operand, or operands joined by operators of a level. -/
inductive Spells : Option Level → Node → List Lexeme → Prop
  | literal {x v} : x.token.value? = some v → v.IsLiteral →
      Spells none (.literal v none x.place) [x]
  | group {e ls p q} : Spells (some .logical) e ls →
      Spells none (.group e none p) (⟨.mark "(", p⟩ :: ls ++ [⟨.mark ")", q⟩])
  | reference {s p} : N s → Spells none (.access (some s) .missing none none p) [⟨.name s, p⟩]
  | item {s e ls p q r} : N s → Spells (some .logical) e ls →
      Spells none (.access (some s) e none none p)
        (⟨.name s, p⟩ :: ⟨.mark "[", q⟩ :: ls ++ [⟨.mark "]", r⟩])
  | call {s ls p q r} (as : List Spelled) : N s → (∀ a ∈ as, Spells (some .logical) a.1 a.2) →
      PerhapsSeparated (as.map Prod.snd) ls →
      Spells none (.call (some s) (as.map Prod.fst) none none p)
        (⟨.name s, p⟩ :: ⟨.mark "(", q⟩ :: ls ++ [⟨.mark ")", r⟩])
  | chain {l : Level} {first ls} (os : List Operation) : Spells l.tighter? first ls →
      (∀ o ∈ os, o.operator.level? = some l) →
      (∀ o ∈ os, Spells l.tighter? o.operand.1 o.operand.2) →
      Spells (some l) (joined first.place first (os.map fun o => (o.operator, o.operand.1)))
        (ls ++ os.flatMap Operation.lexemes)

/-- Lexemes that spell an operation of a level. -/
def SpellsOperation (l : Level) (r : Operator × Node) (ls : List Lexeme) : Prop :=
  ∃ o : Operation, (r, ls) = o.spelled ∧ o.operator.level? = some l ∧
    Spells N l.tighter? o.operand.1 o.operand.2

/-! ## Statements -/

/-- A colon and the name of a type, or nothing. -/
inductive SpellsType : Name → List Lexeme → Prop
  | absent : SpellsType none []
  | present {t p q} : N t → SpellsType (some t) [⟨.mark ":", p⟩, ⟨.name t, q⟩]

/-- An equals sign and an expression, or nothing. -/
inductive SpellsValue : Node → List Lexeme → Prop
  | absent : SpellsValue .missing []
  | present {e ls p} : Spells N (some .logical) e ls → SpellsValue e (⟨.mark "=", p⟩ :: ls)

/-- A case with a value, and its lexemes. -/
structure SpelledCase where
  /-- Where the case stands. -/
  place : Place
  value : Spelled
  /-- Where the colon stands. -/
  colon : Place
  block : List Spelled

namespace SpelledCase

/-- The tree. -/
def node (k : SpelledCase) : Node := .case k.value.1 (k.block.map Prod.fst) k.place

/-- The lexemes. -/
def lexemes (k : SpelledCase) : List Lexeme :=
  ⟨.word "CASE", k.place⟩ :: k.value.2 ++ ⟨.mark ":", k.colon⟩ :: k.block.flatMap Prod.snd

/-- The tree with its lexemes. -/
abbrev spelled (k : SpelledCase) : Spelled := (k.node, k.lexemes)

end SpelledCase

/-- Lexemes that spell a statement. -/
inductive SpellsStatement : Node → List Lexeme → Prop
  | declaration {s typeName value tls vls p q r} : N s → SpellsType N typeName tls →
      SpellsValue N value vls →
      SpellsStatement (.declaration (some s) typeName value none p)
        (⟨.word "LET", p⟩ :: ⟨.name s, q⟩ :: tls ++ vls ++ [⟨.mark ";", r⟩])
  | switch {c cls p q r} (ks : List SpelledCase) (default : List Spelled) :
      Spells N (some .logical) c cls → (∀ k ∈ ks, Spells N (some .logical) k.value.1 k.value.2) →
      (∀ k ∈ ks, ∀ s ∈ k.block, SpellsStatement s.1 s.2) →
      (∀ s ∈ default, SpellsStatement s.1 s.2) →
      SpellsStatement
        (.switch c (ks.map SpelledCase.node ++ [.case .missing (default.map Prod.fst) q]) p)
        (⟨.word "SWITCH", p⟩ :: cls ++ ks.flatMap SpelledCase.lexemes ++
          ⟨.word "DEFAULT", q⟩ :: default.flatMap Prod.snd ++ [⟨.word "END", r⟩])
  | conditional {c cls els p q r} (ts es : List Spelled) : Spells N (some .logical) c cls →
      (∀ s ∈ ts, SpellsStatement s.1 s.2) → (∀ s ∈ es, SpellsStatement s.1 s.2) →
      (els = [] ∧ es = [] ∨ ∃ p', els = ⟨.word "ELSE", p'⟩ :: es.flatMap Prod.snd) →
      SpellsStatement (.conditional c (ts.map Prod.fst) (es.map Prod.fst) p)
        (⟨.word "IF", p⟩ :: cls ++ ⟨.word "DO", q⟩ :: ts.flatMap Prod.snd ++ els ++
          [⟨.word "END", r⟩])
  | whileLoop {c cls p q r} (ss : List Spelled) : Spells N (some .logical) c cls →
      (∀ s ∈ ss, SpellsStatement s.1 s.2) →
      SpellsStatement (.whileLoop c (ss.map Prod.fst) p)
        (⟨.word "WHILE", p⟩ :: cls ++ ⟨.word "DO", q⟩ :: ss.flatMap Prod.snd ++ [⟨.word "END", r⟩])
  | returning {e ls p q} : Spells N (some .logical) e ls →
      SpellsStatement (.returning e p) (⟨.word "RETURN", p⟩ :: ls ++ [⟨.mark ";", q⟩])
  | assignment {e ls value vls p q} : Spells N (some .logical) e ls →
      Spells N (some .logical) value vls →
      SpellsStatement (.assignment e value e.place)
        (ls ++ ⟨.mark "=", p⟩ :: vls ++ [⟨.mark ";", q⟩])
  | expressionStatement {e ls p} : Spells N (some .logical) e ls →
      SpellsStatement (.expressionStatement e e.place) (ls ++ [⟨.mark ";", p⟩])

/-- Lexemes that spell a case with a value. -/
def SpellsCase (c : Node) (ls : List Lexeme) : Prop :=
  ∃ k : SpelledCase, (c, ls) = k.spelled ∧ Spells N (some .logical) k.value.1 k.value.2 ∧
    ∀ s ∈ k.block, SpellsStatement N s.1 s.2

/-! ## Programs -/

/-- Lexemes that spell a global. -/
inductive SpellsGlobal : Node → List Lexeme → Prop
  | list {s t e ls els p q₁ q₂ q₃ q₄ q₅ q₆ q₇} (es : List Spelled) : N s → N t →
      (∀ a ∈ (e, els) :: es, Spells N (some .logical) a.1 a.2) →
      AfterCommas (es.map Prod.snd) ls →
      SpellsGlobal
        (.global (some s) (some t) true
          (.listLiteral (((e, els) :: es).map Prod.fst) none p) none p)
        (⟨.word "LIST", p⟩ :: ⟨.name s, q₁⟩ :: ⟨.mark ":", q₂⟩ :: ⟨.name t, q₃⟩ ::
          ⟨.mark "=", q₄⟩ :: ⟨.mark "[", q₅⟩ :: els ++ ls ++ [⟨.mark "]", q₆⟩, ⟨.mark ";", q₇⟩])
  | mutable {s t value ls p q₁ q₂ q₃ q₄} : N s → N t → SpellsValue N value ls →
      SpellsGlobal (.global (some s) (some t) true value none p)
        (⟨.word "VAR", p⟩ :: ⟨.name s, q₁⟩ :: ⟨.mark ":", q₂⟩ :: ⟨.name t, q₃⟩ :: ls ++
          [⟨.mark ";", q₄⟩])
  | immutable {s t value ls p q₁ q₂ q₃ q₄ q₅} : N s → N t → Spells N (some .logical) value ls →
      SpellsGlobal (.global (some s) (some t) false value none p)
        (⟨.word "VAL", p⟩ :: ⟨.name s, q₁⟩ :: ⟨.mark ":", q₂⟩ :: ⟨.name t, q₃⟩ ::
          ⟨.mark "=", q₄⟩ :: ls ++ [⟨.mark ";", q₅⟩])

/-- A parameter with its places. -/
structure SpelledParameter where
  name : String
  typeName : String
  /-- Where the name stands. -/
  place : Place
  /-- Where the colon stands. -/
  colon : Place
  /-- Where the name of the type stands. -/
  typePlace : Place

/-- The lexemes of a parameter. -/
def SpelledParameter.lexemes (x : SpelledParameter) : List Lexeme :=
  [⟨.name x.name, x.place⟩, ⟨.mark ":", x.colon⟩, ⟨.name x.typeName, x.typePlace⟩]

/-- The names with their lexemes. -/
abbrev SpelledParameter.spelled (x : SpelledParameter) : (String × String) × List Lexeme :=
  ((x.name, x.typeName), x.lexemes)

/-- Lexemes that spell a parameter and the name of its type. -/
def SpellsParameter (r : String × String) (ls : List Lexeme) : Prop :=
  ∃ x : SpelledParameter, (r, ls) = x.spelled ∧ N x.name ∧ N x.typeName

/-- Lexemes that spell a function. -/
inductive SpellsFunction : Node → List Lexeme → Prop
  | function {s returnName ls rls p q₁ q₂ q₃ q₄ q₅} (xs : List SpelledParameter)
      (ss : List Spelled) : N s → (∀ x ∈ xs, N x.name ∧ N x.typeName) →
      PerhapsSeparated (xs.map SpelledParameter.lexemes) ls → SpellsType N returnName rls →
      (∀ x ∈ ss, SpellsStatement N x.1 x.2) →
      SpellsFunction
        (.function (some s) (xs.map (some ·.name)) (xs.map (some ·.typeName)) returnName
          (ss.map Prod.fst) none p)
        (⟨.word "FUN", p⟩ :: ⟨.name s, q₁⟩ :: ⟨.mark "(", q₂⟩ :: ls ++ ⟨.mark ")", q₃⟩ :: rls ++
          ⟨.word "DO", q₄⟩ :: ss.flatMap Prod.snd ++ [⟨.word "END", q₅⟩])

/-- Lexemes that spell a program. -/
inductive SpellsProgram : Node → List Lexeme → Prop
  | source (gs fs : List Spelled) : (∀ g ∈ gs, SpellsGlobal N g.1 g.2) →
      (∀ f ∈ fs, SpellsFunction N f.1 f.2) →
      SpellsProgram (.source (gs.map Prod.fst) (fs.map Prod.fst))
        (gs.flatMap Prod.snd ++ fs.flatMap Prod.snd)

variable {N}

/-! ## Places -/

theorem place_joined {p : Place} {first : Node} {ops : List (Operator × Node)}
    (h : first.place = p) : (joined p first ops).place = p := by
  induction ops generalizing first with
  | nil => exact h
  | cons o ops ih => exact ih rfl

/-- An expression stands where its first lexeme stands. -/
theorem Spells.head {l : Option Level} {e : Node} {ls : List Lexeme}
    (h : Spells N l e ls) : ∃ t ls', ls = ⟨t, e.place⟩ :: ls' := by
  induction h with
  | literal => exact ⟨_, _, rfl⟩
  | group | reference | item | call => exact ⟨_, _, rfl⟩
  | chain os _ _ _ ih _ =>
    obtain ⟨t, ls', rfl⟩ := ih
    rw [place_joined rfl]
    exact ⟨t, _, rfl⟩

theorem Spells.nextPlace_eq {l : Option Level} {e : Node} {ls : List Lexeme}
    {E : Token → List Glyph → Prop} {gs rest : List Glyph} (h : Spells N l e ls)
    (hr : Reads E gs ls rest) : nextPlace gs = e.place := by
  obtain ⟨t, ls', rfl⟩ := h.head
  exact hr.place_eq

/-! ## Shapes -/

/-- The rank of the loosest operators in expressions of a level; operands come after all levels. -/
def floor : Option Level → Nat
  | some l => l.rank
  | none => 4

theorem floor_tighter (l : Level) : floor l.tighter? = l.rank + 1 := by
  cases l <;> rfl

theorem isExpression_joined {l : Level} {p : Place} {first : Node} {ops : List (Operator × Node)}
    (hfirst : first.IsExpression N ∧ ∀ m, first.level? = some m → l.rank ≤ m.rank)
    (hops : ∀ o ∈ ops, o.1.level? = some l ∧ o.2.IsExpression N ∧
      ∀ m, o.2.level? = some m → l.rank < m.rank) :
    (joined p first ops).IsExpression N ∧
      ∀ m, (joined p first ops).level? = some m → l.rank ≤ m.rank := by
  induction ops generalizing first with
  | nil => exact hfirst
  | cons o ops ih =>
    obtain ⟨⟨hlevel, hright, hfloor⟩, hops⟩ := List.forall_mem_cons.mp hops
    refine ih ⟨.binary hlevel hfirst.1 hfirst.2 hright hfloor, fun m hm => ?_⟩ hops
    obtain rfl := Option.some.inj (hlevel.symm.trans hm)
    exact Nat.le_refl _

theorem Spells.isExpression {l : Option Level} {e : Node} {ls : List Lexeme}
    (h : Spells N l e ls) :
    e.IsExpression N ∧ ∀ m, e.level? = some m → floor l ≤ m.rank := by
  induction h with
  | literal _ hv => exact ⟨.literal hv, nofun⟩
  | group _ ih => exact ⟨.group ih.1, nofun⟩
  | reference hs => exact ⟨.reference hs, nofun⟩
  | item hs _ ih => exact ⟨.item hs ih.1, nofun⟩
  | call as hs _ _ ih =>
    refine ⟨.call hs fun a ha => ?_, nofun⟩
    obtain ⟨x, hx, rfl⟩ := List.mem_map.mp ha
    exact (ih x hx).1
  | @chain l first ls os _ hlevel _ hfirst hoperand =>
    rw [floor_tighter] at hfirst
    refine isExpression_joined ⟨hfirst.1, fun m hm => Nat.le_of_succ_le (hfirst.2 m hm)⟩ ?_
    intro o ho
    obtain ⟨x, hx, rfl⟩ := List.mem_map.mp ho
    have hx' := hoperand x hx
    rw [floor_tighter] at hx'
    exact ⟨hlevel x hx, hx'.1, hx'.2⟩

theorem SpellsType.forall_eq_some {t : Name} {ls : List Lexeme} (h : SpellsType N t ls) :
    ∀ s, t = some s → N s := by
  cases h with
  | absent => exact nofun
  | present ht =>
    rintro _ ⟨⟩
    exact ht

theorem SpellsValue.isOptional {e : Node} {ls : List Lexeme} (h : SpellsValue N e ls) :
    e.IsOptional N := by
  cases h with
  | absent => exact .inl rfl
  | present h => exact .inr h.isExpression.1

theorem forall_mem_map_fst {P : Node → Prop} {ss : List Spelled} (h : ∀ s ∈ ss, P s.1) :
    ∀ s ∈ ss.map Prod.fst, P s := by
  intro s hs
  obtain ⟨x, hx, rfl⟩ := List.mem_map.mp hs
  exact h x hx

theorem SpellsStatement.isStatement {s : Node} {ls : List Lexeme} (h : SpellsStatement N s ls) :
    s.IsStatement N := by
  induction h with
  | declaration hs ht hv => exact .declaration hs ht.forall_eq_some hv.isOptional
  | switch ks default hc hvalues _ _ hblocks hdefault =>
    have harms : ks.map SpelledCase.node =
        (ks.map fun k => (k.value.1, k.block.map Prod.fst, k.place)).map Node.ofArm := by
      rw [List.map_map]
      rfl
    rw [harms]
    refine .switch _ hc.isExpression.1 (fun a ha => ?_) (fun a ha => ?_) (forall_mem_map_fst hdefault)
    · obtain ⟨k, hk, rfl⟩ := List.mem_map.mp ha
      exact (hvalues k hk).isExpression.1
    · obtain ⟨k, hk, rfl⟩ := List.mem_map.mp ha
      exact forall_mem_map_fst (hblocks k hk)
  | conditional ts es hc _ _ _ hts hes =>
    exact .conditional hc.isExpression.1 (forall_mem_map_fst hts) (forall_mem_map_fst hes)
  | whileLoop ss hc _ hss => exact .whileLoop hc.isExpression.1 (forall_mem_map_fst hss)
  | returning he => exact .returning he.isExpression.1
  | assignment he hv => exact .assignment he.isExpression.1 hv.isExpression.1
  | expressionStatement he => exact .expressionStatement he.isExpression.1

theorem SpellsGlobal.isGlobal {g : Node} {ls : List Lexeme} (h : SpellsGlobal N g ls) :
    g.IsGlobal N := by
  cases h with
  | list es hs ht hes _ =>
    exact .list hs ht (forall_mem_map_fst fun a ha => (hes a ha).isExpression.1)
  | mutable hs ht hv => exact .mutable hs ht hv.isOptional
  | immutable hs ht hv => exact .immutable hs ht hv.isExpression.1

theorem SpellsFunction.isFunction {f : Node} {ls : List Lexeme} (h : SpellsFunction N f ls) :
    f.IsFunction N := by
  cases h with
  | function xs ss hs hxs _ ht hss =>
    have hnames : xs.map (fun x => some x.name) =
        (xs.map fun x => (x.name, x.typeName)).map (some ·.1) := by
      rw [List.map_map]
      rfl
    have htypes : xs.map (fun x => some x.typeName) =
        (xs.map fun x => (x.name, x.typeName)).map (some ·.2) := by
      rw [List.map_map]
      rfl
    rw [hnames, htypes]
    refine .function _ hs (fun x hx => ?_) ht.forall_eq_some
      (forall_mem_map_fst fun s hs => (hss s hs).isStatement)
    obtain ⟨y, hy, rfl⟩ := List.mem_map.mp hx
    exact hxs y hy

/-- **What is spelled is a program.** -/
theorem SpellsProgram.isProgram {t : Node} {ls : List Lexeme} (h : SpellsProgram N t ls) :
    t.IsProgram N := by
  cases h with
  | source gs fs hgs hfs =>
    exact .source (forall_mem_map_fst fun g hg => (hgs g hg).isGlobal)
      (forall_mem_map_fst fun f hf => (hfs f hf).isFunction)

end Grammar

end PlcLang
