import PlcLang.Proofs.Grammar.Overlong
import PlcLang.Proofs.Grammar.Sound

/-!
# The shape of parsed trees

What analysis and run rely on in every tree that was parsed, node by node.

* `Node.IsPart`, `Node.IsChild`: the trees inside a program, and which stand directly below which.
* `Node.WellShaped`: what holds of every node inside a program.
* `Node.IsProgram.wellShaped`: programs are well shaped.
* `Node.parse?_wellShaped`: so are parsed trees; no literal has a body with a bad escape, and only numerals
  that are too long stop the parser.
-/

namespace PlcLang

open Grammar

namespace Node

/-! ## Parts and children -/

section

variable (N : String → Prop)

/-- The trees inside a program. -/
inductive IsPart : Node → Prop
  | program {n} : n.IsProgram N → IsPart n
  | global {n} : n.IsGlobal N → IsPart n
  | function {n} : n.IsFunction N → IsPart n
  | statement {n} : n.IsStatement N → IsPart n
  | expression {n} : n.IsExpression N → IsPart n
  | missing : IsPart .missing
  | case {v ss p} : v.IsOptional N → (∀ s ∈ ss, s.IsStatement N) → IsPart (.case v ss p)
  | list {es t p} : (∀ e ∈ es, e.IsExpression N) → IsPart (.listLiteral es t p)

/-- The trees that stand below others in a program, each in its position. -/
inductive IsChild : Node → Node → Prop
  | optional {n e} : e.IsOptional N → IsChild n e
  | statement {n s} : s.IsStatement N → IsChild n s
  | case {c cs p v ss q} : .case v ss q ∈ cs → v.IsOptional N → (∀ s ∈ ss, s.IsStatement N) →
      IsChild (.switch c cs p) (.case v ss q)
  | list {name typeName e es t p b q} : (∀ a ∈ e :: es, a.IsExpression N) →
      IsChild (.global name typeName (some true) (.listLiteral (e :: es) t p) b q)
        (.listLiteral (e :: es) t p)
  | global {g gs fs} : g ∈ gs → g.IsGlobal N → IsChild (.source gs fs) g
  | function {f gs fs} : f ∈ fs → f.IsFunction N → IsChild (.source gs fs) f

end

variable {N : String → Prop} {n m p : Node}

theorem IsExpression.isChild (h : n.IsExpression N) (hm : m ∈ n.children) : IsChild N n m := by
  cases h with
  | literal => cases hm
  | group he | item _ he =>
    obtain rfl := List.mem_singleton.mp hm
    exact .optional (.inr he)
  | binary _ hl _ hr =>
    rcases List.mem_cons.mp hm with rfl | hm
    · exact .optional (.inr hl)
    · obtain rfl := List.mem_singleton.mp hm
      exact .optional (.inr hr)
  | reference =>
    obtain rfl := List.mem_singleton.mp hm
    exact .optional (.inl rfl)
  | call _ hes => exact .optional (.inr (hes m hm))

theorem IsStatement.isChild (h : n.IsStatement N) (hm : m ∈ n.children) : IsChild N n m := by
  cases h with
  | expressionStatement he | returning he =>
    obtain rfl := List.mem_singleton.mp hm
    exact .optional (.inr he)
  | declaration _ _ hv =>
    obtain rfl := List.mem_singleton.mp hm
    exact .optional hv
  | assignment hr hv =>
    rcases List.mem_cons.mp hm with rfl | hm
    · exact .optional (.inr hr)
    · obtain rfl := List.mem_singleton.mp hm
      exact .optional (.inr hv)
  | conditional hc hts hes =>
    rcases List.mem_cons.mp hm with rfl | hm
    · exact .optional (.inr hc)
    · rcases List.mem_append.mp hm with hm | hm
      · exact .statement (hts m hm)
      · exact .statement (hes m hm)
  | switch arms hc hvalues harms hss =>
    rcases List.mem_cons.mp hm with rfl | hm
    · exact .optional (.inr hc)
    · have hcase := hm
      rcases List.mem_append.mp hm with hm | hm
      · obtain ⟨a, ha, rfl⟩ := List.mem_map.mp hm
        exact .case hcase (.inr (hvalues a ha)) (harms a ha)
      · obtain rfl := List.mem_singleton.mp hm
        exact .case hcase (.inl rfl) hss
  | whileLoop hc hss =>
    rcases List.mem_cons.mp hm with rfl | hm
    · exact .optional (.inr hc)
    · exact .statement (hss m hm)

/-- What stands below a tree inside a program. -/
theorem IsPart.isChild (h : IsPart N n) (hm : m ∈ n.children) : IsChild N n m := by
  cases h with
  | program h =>
    cases h with
    | source hgs hfs =>
      rcases List.mem_append.mp hm with hm | hm
      · exact .global hm (hgs m hm)
      · exact .function hm (hfs m hm)
  | global h =>
    cases h with
    | list _ _ hes =>
      obtain rfl := List.mem_singleton.mp hm
      exact .list hes
    | mutable _ _ hv =>
      obtain rfl := List.mem_singleton.mp hm
      exact .optional hv
    | immutable _ _ hv =>
      obtain rfl := List.mem_singleton.mp hm
      exact .optional (.inr hv)
  | function h =>
    cases h with
    | function _ _ _ _ hss => exact .statement (hss m hm)
  | statement h => exact h.isChild hm
  | expression h => exact h.isChild hm
  | missing => cases hm
  | case hv hss =>
    rcases List.mem_cons.mp hm with rfl | hm
    · exact .optional hv
    · exact .statement (hss m hm)
  | list hes => exact .optional (.inr (hes m hm))

theorem IsChild.isPart (h : IsChild N n m) : IsPart N m := by
  cases h with
  | optional h =>
    rcases h with rfl | h
    · exact .missing
    · exact .expression h
  | statement h => exact .statement h
  | case _ hv hss => exact .case hv hss
  | list hes => exact .list hes
  | global _ h => exact .global h
  | function _ h => exact .function h

theorem IsPart.of_contains {t : Node} (h : IsPart N t) (hn : t.Contains n) : IsPart N n := by
  induction hn with
  | self => exact h
  | child _ hm ih => exact (ih.isChild hm).isPart

theorem IsProgram.isPart {t : Node} (h : t.IsProgram N) (hn : t.Contains n) : IsPart N n :=
  IsPart.of_contains (.program h) hn

/-! ## Nodes -/

/-- The names of a node, those that every such node has and those that may be absent. -/
def names : Node → List Name × List Name
  | access name .. | call name .. => ([name], [])
  | declaration name typeName .. => ([name], [typeName])
  | global name typeName .. => ([name, typeName], [])
  | function name parameters types returnType .. => (name :: (parameters ++ types), [returnType])
  | _ => ([], [])

/-- What holds of every node inside a program. -/
structure WellShaped (t : Node) : Prop where
  source : ∃ gs fs, t = .source gs fs
  /-- A switch has cases, of which the last and no other has no value. -/
  switches : ∀ {c cs p}, t.Contains (.switch c cs p) → ∃ ks ss q,
    cs = ks ++ [.case .missing ss q] ∧ ∀ k ∈ ks, ∃ v ss q, k = .case v ss q ∧ v.isPresent = true
  /-- A case stands in a switch. -/
  cases : ∀ {n v ss p}, t.Contains n → .case v ss p ∈ n.children →
    ∃ c cs q, n = .switch c cs q ∧ .case v ss p ∈ cs
  /-- A list is the value of a variable among the globals, and it is not empty. -/
  lists : ∀ {n es ty p}, t.Contains n → .listLiteral es ty p ∈ n.children →
    es ≠ [] ∧ ∃ name typeName b q, n = .global name typeName (some true) (.listLiteral es ty p) b q
  /-- A global stands among the globals of the program. -/
  globals : ∀ {n name typeName mutable value b p}, t.Contains n →
    .global name typeName mutable value b p ∈ n.children →
    ∃ gs fs, n = .source gs fs ∧ .global name typeName mutable value b p ∈ gs
  /-- A function stands among the functions of the program. -/
  functions : ∀ {n name parameters types returnType ss b p}, t.Contains n →
    .function name parameters types returnType ss b p ∈ n.children →
    ∃ gs fs, n = .source gs fs ∧ .function name parameters types returnType ss b p ∈ fs
  /-- A constant has a value. -/
  constants : ∀ {name typeName mutable value b p},
    t.Contains (.global name typeName mutable value b p) →
    mutable = some true ∨ mutable = some false ∧ value.isPresent = true
  /-- Every parameter has a type. -/
  parameters : ∀ {name parameters types returnType ss b p},
    t.Contains (.function name parameters types returnType ss b p) →
    parameters.length = types.length
  /-- An operation has an operator of some level. Its right operand is no operation of this level or
  a looser one, its left operand is none of a looser one. -/
  operations : ∀ {op l r ty p}, t.Contains (.binary op l r ty p) → ∃ level : Level,
    op.level? = some level ∧ (∀ m, l.level? = some m → level.rank ≤ m.rank) ∧
      ∀ m, r.level? = some m → level.rank < m.rank
  /-- A character is one. -/
  characters : ∀ {s ty p}, t.Contains (.literal (.character s) ty p) → ∃ c, s = String.singleton c
  /-- A decimal is finite and has a fraction. -/
  decimals : ∀ {d ty p}, t.Contains (.literal (.decimal d) ty p) →
    ∃ negative c e, d = .finite negative c e ∧ e < 0
  /-- Names are identifiers. -/
  names : ∀ {n}, t.Contains n → (∀ x ∈ n.names.1, ∃ s, x = some s ∧ IsIdentifier s) ∧
    ∀ x ∈ n.names.2, ∀ s, x = some s → IsIdentifier s

/-! ## Programs -/

section Parts

variable {ty : Option Ty} {q : Place}

theorem IsPart.switch {c : Node} {cs : List Node} (h : IsPart N (.switch c cs q)) : ∃ ks ss q,
    cs = ks ++ [.case .missing ss q] ∧ ∀ k ∈ ks, ∃ v ss q, k = .case v ss q ∧ v.isPresent = true := by
  cases h with
  | statement h =>
    cases h with
    | switch arms _ hvalues _ _ =>
      refine ⟨arms.map ofArm, _, _, rfl, fun k hk => ?_⟩
      obtain ⟨a, ha, rfl⟩ := List.mem_map.mp hk
      exact ⟨_, _, _, rfl, (hvalues a ha).isPresent⟩
  | program h | global h | function h | expression h => cases h

theorem IsPart.constant {name typeName : Name} {mutable : Option Bool} {value : Node}
    {b : Option VariableRef} (h : IsPart N (.global name typeName mutable value b q)) :
    mutable = some true ∨ mutable = some false ∧ value.isPresent = true := by
  cases h with
  | global h =>
    cases h with
    | list | mutable => exact .inl rfl
    | immutable _ _ hv => exact .inr ⟨rfl, hv.isPresent⟩
  | program h | function h | statement h | expression h => cases h

theorem IsPart.parameters {name returnType : Name} {parameters types : List Name} {ss : List Node}
    {b : Option FunctionRef} (h : IsPart N (.function name parameters types returnType ss b q)) :
    parameters.length = types.length := by
  cases h with
  | function h =>
    cases h with
    | function => rw [List.length_map, List.length_map]
  | program h | global h | statement h | expression h => cases h

theorem IsPart.operation {op : Operator} {l r : Node} (h : IsPart N (.binary op l r ty q)) :
    ∃ level : Level, op.level? = some level ∧
      (∀ m, l.level? = some m → level.rank ≤ m.rank) ∧
      ∀ m, r.level? = some m → level.rank < m.rank := by
  cases h with
  | expression h =>
    cases h with
    | binary hop _ hl _ hr => exact ⟨_, hop, hl, hr⟩
  | program h | global h | function h | statement h => cases h

theorem IsPart.literal {v : Value} (h : IsPart N (.literal v ty q)) : v.IsLiteral := by
  cases h with
  | expression h =>
    cases h with
    | literal hv => exact hv
  | program h | global h | function h | statement h => cases h

/-- Names are as they should be. -/
theorem IsPart.names (h : IsPart N n) : (∀ x ∈ n.names.1, ∃ s, x = some s ∧ N s) ∧
    ∀ x ∈ n.names.2, ∀ s, x = some s → N s := by
  have hone {s} (hs : N s) : ∀ x ∈ [some s], ∃ s, x = some s ∧ N s :=
    List.forall_mem_singleton.mpr ⟨s, rfl, hs⟩
  have hnone {n : Node} (hn : n.names = ([], [])) :
      (∀ x ∈ n.names.1, ∃ s, x = some s ∧ N s) ∧ ∀ x ∈ n.names.2, ∀ s, x = some s → N s := by
    rw [hn]
    exact ⟨List.forall_mem_nil _, List.forall_mem_nil _⟩
  cases h with
  | program h =>
    cases h
    exact hnone rfl
  | global h =>
    cases h with
    | list hs ht | mutable hs ht | immutable hs ht =>
      exact ⟨List.forall_mem_cons.mpr ⟨⟨_, rfl, hs⟩, hone ht⟩, List.forall_mem_nil _⟩
  | function h =>
    cases h with
    | function parameters hs hxs ht =>
      refine ⟨List.forall_mem_cons.mpr ⟨⟨_, rfl, hs⟩, List.forall_mem_append.mpr ⟨?_, ?_⟩⟩,
        List.forall_mem_singleton.mpr ht⟩
      · exact List.forall_mem_map.mpr fun x hx => ⟨x.1, rfl, (hxs x hx).1⟩
      · exact List.forall_mem_map.mpr fun x hx => ⟨x.2, rfl, (hxs x hx).2⟩
  | statement h =>
    cases h with
    | declaration hs ht => exact ⟨hone hs, List.forall_mem_singleton.mpr ht⟩
    | _ => exact hnone rfl
  | expression h =>
    cases h with
    | reference hs | item hs | call hs => exact ⟨hone hs, List.forall_mem_nil _⟩
    | _ => exact hnone rfl
  | missing | case | list => exact hnone rfl

end Parts

/-- **Programs are well shaped.** -/
theorem IsProgram.wellShaped {t : Node} (h : t.IsProgram IsIdentifier) : t.WellShaped where
  source := by
    cases h with
    | source => exact ⟨_, _, rfl⟩
  switches hn := (h.isPart hn).switch
  cases hn hm := by
    cases (h.isPart hn).isChild hm with
    | case hk => exact ⟨_, _, _, rfl, hk⟩
    | optional h => rcases h with h | h <;> cases h
    | statement h | global _ h | function _ h => cases h
  lists hn hm := by
    cases (h.isPart hn).isChild hm with
    | list => exact ⟨List.cons_ne_nil _ _, _, _, _, _, rfl⟩
    | optional h => rcases h with h | h <;> cases h
    | statement h | global _ h | function _ h => cases h
  globals hn hm := by
    cases (h.isPart hn).isChild hm with
    | global hg => exact ⟨_, _, rfl, hg⟩
    | optional h => rcases h with h | h <;> cases h
    | statement h | function _ h => cases h
  functions hn hm := by
    cases (h.isPart hn).isChild hm with
    | function hf => exact ⟨_, _, rfl, hf⟩
    | optional h => rcases h with h | h <;> cases h
    | statement h | global _ h => cases h
  constants hn := (h.isPart hn).constant
  parameters hn := (h.isPart hn).parameters
  operations hn := (h.isPart hn).operation
  characters hn := by
    cases (h.isPart hn).literal with
    | character c => exact ⟨c, rfl⟩
  decimals hn := by
    cases (h.isPart hn).literal with
    | decimal negative c he => exact ⟨negative, c, _, rfl, he⟩
  names hn := (h.isPart hn).names

/-- **Parsed trees are well shaped.** A text without a tree holds something that does not belong there,
unless the parser gives it up at a numeral that is too long, which the text then holds. And whatever stands
between quotes, the parser takes a body whose escapes are all known, so that no literal is refused for an
escape. -/
theorem parse?_wellShaped (text : String) :
    (∀ t, parse? text = some t → t.WellShaped) ∧
      (parse? text = none → parse text = .error .mismatch ∨ parse text = .error .overlong ∧
        ∃ ds, ds <:+: text.toList ∧ IsNatural ds ∧ Numeral.limit < ds.length) ∧
      ∀ quote gs, ∃ cs, unescape (body quote gs).1 = .ok cs := by
  refine ⟨fun t h => (isProgram_of_parse? h).wellShaped, fun h => ?_, fun quote gs => ?_⟩
  · cases hparse : parse text with
    | ok t => cases h.symm.trans (parse?_eq_some_iff.mpr hparse)
    | error e =>
      cases e with
      | mismatch => exact .inl rfl
      | overlong => exact .inr ⟨rfl, exists_of_parse_eq_overlong hparse⟩
  · obtain ⟨-, cs, hcs⟩ := body_eq (rfl : body quote gs = ((body quote gs).1, (body quote gs).2))
    exact ⟨cs, hcs.unescape_eq⟩

/-- A list, a constant, a switch, literals and operators of three levels. -/
def assorted : String :=
  "LIST l: T = [1, 2]; VAL v: T = 1.5; FUN main(x: T): T DO " ++
  "SWITCH x CASE \x27\\n\x27: DEFAULT l[0] = 1 + 2 * x - 3; END END"

theorem parse?_wellShaped_assorted : ∃ t, parse? assorted = some t ∧ t.WellShaped := by
  obtain ⟨t, ht⟩ := Option.isSome_iff_exists.mp
    (by decide +kernel : (parse? assorted).isSome = true)
  exact ⟨t, ht, (parse?_wellShaped assorted).1 t ht⟩

/-- A numeral with one digit too many, where an integer belongs. -/
theorem parse_eq_overlong_of_ones :
    parse ("FUN main(): Integer DO RETURN " ++ ones 4301 ++ "; END") = .error .overlong :=
  parse_returning_overlong (spelling_ones (by decide)) (mt (fits_repunit_iff (by decide)).mp (by decide))

end Node

end PlcLang
