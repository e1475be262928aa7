import PlcLang.Proofs.Shape
import PlcLang.Proofs.Typing.State
import PlcLang.Proofs.Typing.Step

/-!
# The analysis of expressions

The visit of an expression succeeds just if the expression has a type in the context that the state
represents; it returns the expression with its slots filled and leaves the state as it is.

* `resultType_eq_ok_iff`: the types of operations.
* `sound_expression`, `sound_list`: what is accepted has a type.
* `HasType.visit_eq_ok`: what has a type is accepted.
-/

namespace PlcLang.Typing

open Walk Analysis

variable {N : String → Prop} {Γ : Context} {σ σ' : State Unit (Option Ty)}

/-! ## Types -/

theorem check_eq_ok_iff {target source : Ty} {u : Unit} :
    target.check source = .ok u ↔ target.Accepts source := by
  unfold Ty.check
  split <;> simp_all

theorem accepts_boolean_iff {τ : Ty} : Ty.boolean.Accepts τ ↔ τ = .boolean := by
  cases τ <;> simp [Ty.Accepts]

theorem accepts_integer_iff {τ : Ty} : Ty.integer.Accepts τ ↔ τ = .integer := by
  cases τ <;> simp [Ty.Accepts]

theorem isNumeric_iff {τ : Ty} : τ.isNumeric = true ↔ τ = .integer ∨ τ = .decimal := by
  cases τ <;> simp [Ty.isNumeric]

theorem bind_eq_ok_iff {ε α β : Type} {x : Except ε α} {f : α → Except ε β} {b : β} :
    x >>= f = .ok b ↔ ∃ a, x = .ok a ∧ f a = .ok b := by
  cases x <;> simp [bind, Except.bind]

theorem arithmeticType_eq_ok_iff {op : Operator} {ρ σ τ : Ty} :
    Operator.resultType.arithmeticType op ρ σ = .ok τ ↔
      ρ = σ ∧ σ = τ ∧ (τ = .integer ∨ τ = .decimal) := by
  unfold Operator.resultType.arithmeticType
  rw [← isNumeric_iff]
  split
  next h =>
    obtain ⟨rfl, h⟩ := h
    simp only [Except.ok.injEq, true_and]
    exact ⟨fun he => ⟨he, he ▸ h⟩, And.left⟩
  next h =>
    simp only [reduceCtorEq, false_iff]
    rintro ⟨rfl, rfl, hn⟩
    exact h ⟨rfl, hn⟩

theorem resultType_eq_ok_iff {op : Operator} {ρ σ τ : Ty} :
    op.resultType ρ σ = .ok τ ↔ OperatorType op ρ σ τ := by
  constructor
  · intro h
    cases op with
    | and | or =>
      simp only [Operator.resultType, bind_eq_ok_iff, check_eq_ok_iff, accepts_boolean_iff,
        Except.ok.injEq, exists_const] at h
      obtain ⟨rfl, rfl, rfl⟩ := h
      exact .logical rfl
    | equal | unequal | less | greater =>
      by_cases he : ρ = σ
      · subst he
        simp only [Operator.resultType, ne_eq, not_true_eq_false, if_false, bind_eq_ok_iff,
          check_eq_ok_iff, Except.ok.injEq, exists_const] at h
        obtain ⟨h, rfl⟩ := h
        exact .comparison rfl h
      · simp [Operator.resultType, he, bind, Except.bind] at h
    | plus =>
      simp only [Operator.resultType] at h
      split at h
      next hs =>
        cases h
        exact .concatenation hs
      next =>
        obtain ⟨rfl, rfl, h⟩ := arithmeticType_eq_ok_iff.mp h
        exact .arithmetic (.inl rfl) h
    | minus | times | divide =>
      obtain ⟨rfl, rfl, h⟩ := arithmeticType_eq_ok_iff.mp h
      exact .arithmetic (by simp) h
    | power =>
      simp only [Operator.resultType, bind_eq_ok_iff, check_eq_ok_iff, accepts_integer_iff,
        exists_const] at h
      obtain ⟨rfl, h⟩ := h
      split at h
      next hn =>
        cases h
        exact .power (isNumeric_iff.mp hn)
      next => cases h
    | other => cases h
  · intro h
    cases h with
    | logical h =>
      cases op with
      | and | or => rfl
      | _ => cases h
    | comparison h hc =>
      have hcheck := check_eq_ok_iff (u := ()).mpr hc
      cases op with
      | equal | unequal | less | greater =>
        simp [Operator.resultType, hcheck, bind, Except.bind]
      | _ => cases h
    | concatenation h => simp [Operator.resultType, h]
    | arithmetic h hn =>
      have hne : ¬ (ρ = .string ∨ ρ = .string) := by rcases hn with rfl | rfl <;> simp
      have ha : Operator.resultType.arithmeticType op ρ ρ = .ok ρ :=
        arithmeticType_eq_ok_iff.mpr ⟨rfl, rfl, hn⟩
      rcases h with rfl | rfl | rfl | rfl
      · rw [Operator.resultType, if_neg hne, ha]
      all_goals exact ha
    | power h => rcases h with rfl | rfl <;> rfl

theorem literalType_of_eq_ok {v : Value} (hv : v.IsLiteral) {τ : Ty}
    (h : literalType v σ = .ok τ σ') : LiteralType v τ ∧ σ = σ' := by
  cases hv with
  | nil =>
    obtain ⟨rfl, rfl⟩ := pure_eq_ok.mp h
    exact ⟨.nil, rfl⟩
  | boolean b =>
    obtain ⟨rfl, rfl⟩ := pure_eq_ok.mp h
    exact ⟨.boolean b, rfl⟩
  | integer i =>
    simp only [literalType, bind_eq_ok, require_eq_ok, pure_eq_ok, decide_eq_true_eq] at h
    obtain ⟨_, _, ⟨hi, rfl⟩, rfl, rfl⟩ := h
    exact ⟨.integer hi, rfl⟩
  | decimal negative c he =>
    simp only [literalType, bind_eq_ok, require_eq_ok, pure_eq_ok] at h
    obtain ⟨_, _, ⟨hd, rfl⟩, rfl, rfl⟩ := h
    exact ⟨.decimal hd, rfl⟩
  | character c =>
    obtain ⟨rfl, rfl⟩ := pure_eq_ok.mp h
    exact ⟨.character _, rfl⟩
  | string t =>
    obtain ⟨rfl, rfl⟩ := pure_eq_ok.mp h
    exact ⟨.string t, rfl⟩

theorem LiteralType.eq_ok {v : Value} {τ : Ty} (h : LiteralType v τ) :
    literalType v σ = .ok τ σ := by
  cases h with
  | nil | boolean | character | string => rfl
  | integer hi => simp [literalType, hi]
  | decimal hd => simp [literalType, hd]

theorem resolve_eq_ok {name : Name} {τ : Ty} :
    resolve name σ = .ok τ σ' ↔ name = some τ.name ∧ σ = σ' := by
  have hname : name.bind Ty.ofName? = some τ ↔ name = some τ.name := by
    constructor
    · intro h
      obtain ⟨s, rfl, hs⟩ := Option.bind_eq_some_iff.mp h
      rw [Ty.name_of_ofName? hs]
    · rintro rfl
      exact Ty.ofName?_name τ
  rw [← hname]
  unfold resolve
  cases name.bind Ty.ofName? <;> simp

theorem typeOf_eq_ok {node : Node} {τ : Ty} :
    Analysis.typeOf node σ = .ok τ σ' ↔ node.type? = some τ ∧ σ = σ' := part_eq_ok

theorem expect_eq_ok {target : Ty} {node : Node} {u : Unit} :
    expect target node σ = .ok u σ' ↔ (∃ τ, node.type? = some τ ∧ target.Accepts τ) ∧ σ = σ' := by
  simp only [expect, bind_eq_ok, typeOf_eq_ok, lift_eq_ok, check_eq_ok_iff]
  constructor
  · rintro ⟨τ, _, ⟨hτ, rfl⟩, ha, rfl⟩
    exact ⟨⟨τ, hτ, ha⟩, rfl⟩
  · rintro ⟨⟨τ, hτ, ha⟩, rfl⟩
    exact ⟨τ, σ, ⟨hτ, rfl⟩, ha, rfl⟩

/-! ## Slots -/

theorem HasType.type? {e e' : Node} {τ : Ty} (h : HasType Γ e e' τ) : e'.type? = some τ := by
  cases h <;> rfl

theorem HasType.isPresent {e e' : Node} {τ : Ty} (h : HasType Γ e e' τ) : e.isPresent = true := by
  cases h <;> rfl

theorem HasType.isPresent' {e e' : Node} {τ : Ty} (h : HasType Γ e e' τ) :
    e'.isPresent = true := by
  cases h <;> rfl

/-! ## Soundness -/

/-- A visit of `e` that succeeds finds a type of `e` and leaves the state as it is. -/
def Sound (Γ : Context) (σ : State Unit (Option Ty)) (e : Node) : Prop :=
  ∀ {d σ'}, visit e σ = .ok d σ' → (∃ τ, HasType Γ e d τ) ∧ σ = σ'

theorem typed_of_visitAll {es ds : List Node} (hes : ∀ e ∈ es, Sound Γ σ e)
    (h : visitAll visit es σ = .ok ds σ') :
    (∃ as : List Typed, (∀ a ∈ as, HasType Γ a.plain a.filled a.type) ∧
      as.map Typed.plain = es ∧ as.map Typed.filled = ds) ∧ σ = σ' := by
  induction es generalizing ds with
  | nil =>
    rw [visitAll, pure_eq_ok] at h
    obtain ⟨rfl, rfl⟩ := h
    exact ⟨⟨[], by simp, rfl, rfl⟩, rfl⟩
  | cons e es ih =>
    simp only [visitAll, bind_eq_ok, pure_eq_ok] at h
    obtain ⟨d, _, hd, ds, _, hds, rfl, rfl⟩ := h
    obtain ⟨⟨τ, hτ⟩, rfl⟩ := hes e List.mem_cons_self hd
    obtain ⟨⟨as, has, rfl, rfl⟩, rfl⟩ := ih (fun e he => hes e (List.mem_cons_of_mem _ he)) hds
    exact ⟨⟨⟨e, d, τ⟩ :: as, List.forall_mem_cons.mpr ⟨hτ, has⟩, rfl, rfl⟩, rfl⟩

theorem typed_of_visitArguments {es ds : List Node} {types : List Ty}
    (hlength : es.length = types.length) (hes : ∀ e ∈ es, Sound Γ σ e)
    (h : visitArguments visit es types σ = .ok ds σ') :
    (∃ as : List Typed, (∀ a ∈ as, HasType Γ a.plain a.filled a.type) ∧
      List.Forall₂ Ty.Accepts types (as.map Typed.type) ∧
      as.map Typed.plain = es ∧ as.map Typed.filled = ds) ∧ σ = σ' := by
  induction es generalizing ds types with
  | nil =>
    obtain rfl := List.length_eq_zero_iff.mp hlength.symm
    rw [visitArguments.eq_def, pure_eq_ok] at h
    obtain ⟨rfl, rfl⟩ := h
    exact ⟨⟨[], by simp, .nil, rfl, rfl⟩, rfl⟩
  | cons e es ih =>
    obtain ⟨type, types, rfl⟩ := List.exists_cons_of_length_eq_add_one hlength.symm
    simp only [visitArguments, bind_eq_ok, pure_eq_ok, expect_eq_ok] at h
    obtain ⟨d, _, hd, _, _, ⟨⟨τ', hτ', ha⟩, rfl⟩, ds, _, hds, rfl, rfl⟩ := h
    obtain ⟨⟨τ, hτ⟩, rfl⟩ := hes e List.mem_cons_self hd
    obtain rfl := Option.some.inj (hτ.type?.symm.trans hτ')
    obtain ⟨⟨as, has, hall, rfl, rfl⟩, rfl⟩ :=
      ih (Nat.succ.inj hlength) (fun e he => hes e (List.mem_cons_of_mem _ he)) hds
    exact ⟨⟨⟨e, d, τ⟩ :: as, List.forall_mem_cons.mpr ⟨hτ, has⟩, .cons ha hall, rfl, rfl⟩, rfl⟩

theorem arity_eq_of_seesFunction {name : Name} {arity : Nat} {ref : FunctionRef}
    {f : Function Unit} (h : SeesFunction name arity Γ ref f) :
    f.parameterTypes.length = arity := by
  induction h with
  | here _ _ harity => exact harity
  | outside _ _ ih => exact ih

theorem sound_item (h : Represents Γ σ) {name : Name} {offset : Node} {t : Option Ty}
    {b : Option VariableRef} {p : Place} (hpresent : offset.isPresent = true)
    (ho : Sound Γ σ offset) : Sound Γ σ (.access name offset t b p) := by
  intro d σ' hd
  rw [visit_eq, attached_eq_ok, step] at hd
  simp only [bind_eq_ok, pure_eq_ok, lookupVariable_eq_ok, whenPresent, hpresent, if_true] at hd
  obtain ⟨⟨ref, v⟩, _, ⟨hv, rfl⟩, offset', _, hoffset, _, _, hexpect, rfl, rfl⟩ := hd
  obtain ⟨⟨τ, hτ⟩, rfl⟩ := ho hoffset
  rw [expectPresent, if_pos hτ.isPresent', expect_eq_ok] at hexpect
  obtain ⟨⟨τ', hτ', ha⟩, rfl⟩ := hexpect
  obtain rfl := Option.some.inj (hτ.type?.symm.trans hτ')
  rw [accepts_integer_iff] at ha
  exact ⟨⟨v.type, .item (h.findVariable?_iff.mp hv) (ha ▸ hτ)⟩, rfl⟩

/-- **Only what has a type is accepted.** -/
theorem sound_expression (h : Represents Γ σ) {e : Node} (he : e.IsExpression N) :
    Sound Γ σ e := by
  induction he with
  | literal hv =>
    intro d σ' hd
    rw [visit_eq, attached_eq_ok, step] at hd
    simp only [bind_eq_ok, pure_eq_ok] at hd
    obtain ⟨τ, _, hl, rfl, rfl⟩ := hd
    obtain ⟨hτ, rfl⟩ := literalType_of_eq_ok hv hl
    exact ⟨⟨τ, .literal hτ⟩, rfl⟩
  | group _ ih =>
    intro d σ' hd
    rw [visit_eq, attached_eq_ok, step] at hd
    simp only [bind_eq_ok, pure_eq_ok, require_eq_ok, typeOf_eq_ok] at hd
    obtain ⟨_, _, ⟨hb, rfl⟩, e', _, he', τ', _, ⟨hτ', rfl⟩, rfl, rfl⟩ := hd
    obtain ⟨⟨τ, hτ⟩, rfl⟩ := ih he'
    obtain rfl := Option.some.inj (hτ.type?.symm.trans hτ')
    exact ⟨⟨τ, .group hb hτ⟩, rfl⟩
  | binary _ _ _ _ _ hleft hright =>
    intro d σ' hd
    rw [visit_eq, attached_eq_ok, step] at hd
    simp only [bind_eq_ok, pure_eq_ok, typeOf_eq_ok, lift_eq_ok, resultType_eq_ok_iff] at hd
    obtain ⟨left', _, hl, right', _, hr, ρ', _, ⟨hρ', rfl⟩, τ', _, ⟨hτ', rfl⟩, υ, _, ⟨hop, rfl⟩, rfl,
      rfl⟩ := hd
    obtain ⟨⟨ρ, hρ⟩, rfl⟩ := hleft hl
    obtain ⟨⟨τ, hτ⟩, rfl⟩ := hright hr
    obtain rfl := Option.some.inj (hρ.type?.symm.trans hρ')
    obtain rfl := Option.some.inj (hτ.type?.symm.trans hτ')
    exact ⟨⟨υ, .binary hρ hτ hop⟩, rfl⟩
  | reference _ =>
    intro d σ' hd
    rw [visit_eq, attached_eq_ok, step] at hd
    simp only [bind_eq_ok, pure_eq_ok, lookupVariable_eq_ok, whenPresent, expectPresent,
      Node.isPresent, Bool.false_eq_true, if_false] at hd
    obtain ⟨⟨ref, v⟩, _, ⟨hv, rfl⟩, _, _, ⟨rfl, rfl⟩, _, _, ⟨-, rfl⟩, rfl, rfl⟩ := hd
    exact ⟨⟨v.type, .reference (h.findVariable?_iff.mp hv)⟩, rfl⟩
  | item _ ho ih => exact sound_item h ho.isPresent ih
  | call _ _ ih =>
    intro d σ' hd
    rw [visit_eq, attached_eq_ok, step] at hd
    simp only [bind_eq_ok, pure_eq_ok, lookupFunction_eq_ok] at hd
    obtain ⟨⟨ref, f⟩, _, ⟨hf, rfl⟩, es', _, hes', rfl, rfl⟩ := hd
    have hsees := h.findFunction?_iff.mp hf
    obtain ⟨⟨as, has, hall, rfl, rfl⟩, rfl⟩ :=
      typed_of_visitArguments (arity_eq_of_seesFunction hsees).symm ih hes'
    rw [List.length_map] at hsees
    exact ⟨⟨f.returnType, .call as hsees has hall⟩, rfl⟩

theorem forM_expect_eq_ok {τ : Ty} {es : List Node} {u : Unit} :
    (es.forM (expect τ)) σ = .ok u σ' ↔
      (∀ e ∈ es, ∃ τ', e.type? = some τ' ∧ τ.Accepts τ') ∧ σ = σ' := by
  induction es generalizing σ with
  | nil => simp
  | cons e es ih =>
    change (expect τ e >>= fun _ => es.forM (expect τ)) σ = _ ↔ _
    simp only [bind_eq_ok, expect_eq_ok, ih, List.forall_mem_cons]
    constructor
    · rintro ⟨_, _, ⟨he, rfl⟩, hes, rfl⟩
      exact ⟨⟨he, hes⟩, rfl⟩
    · rintro ⟨⟨he, hes⟩, rfl⟩
      exact ⟨(), σ, ⟨he, rfl⟩, hes, rfl⟩

theorem sound_list {e : Node} {es : List Node} {t : Option Ty} {p : Place}
    (hes : ∀ a ∈ e :: es, Sound Γ σ a) : Sound Γ σ (.listLiteral (e :: es) t p) := by
  intro d σ' hd
  rw [visit_eq, attached_eq_ok, step] at hd
  simp only [bind_eq_ok, pure_eq_ok, require_eq_ok, part_eq_ok, forM_expect_eq_ok] at hd
  obtain ⟨_, _, ⟨-, rfl⟩, _, _, hds, τ, _, ⟨hτ, rfl⟩, _, _, ⟨hall, rfl⟩, rfl, rfl⟩ := hd
  obtain ⟨⟨as, has, hplain, rfl⟩, rfl⟩ := typed_of_visitAll hes hds
  obtain ⟨a, as, rfl, rfl, rfl⟩ := List.map_eq_cons_iff.mp hplain
  obtain rfl : a.type = τ := Option.some.inj ((has a List.mem_cons_self).type?.symm.trans hτ)
  refine ⟨⟨a.type, .list a as has fun x hx => ?_⟩, rfl⟩
  obtain ⟨τ', hτ', ha⟩ := hall x.filled (List.mem_map_of_mem hx)
  rwa [Option.some.inj ((has x hx).type?.symm.trans hτ')]

/-! ## Completeness -/

theorem visitAll_typed {as : List Typed} (h : ∀ a ∈ as, visit a.plain σ = .ok a.filled σ) :
    visitAll visit (as.map Typed.plain) σ = .ok (as.map Typed.filled) σ := by
  induction as with
  | nil => rfl
  | cons a as ih =>
    obtain ⟨ha, has⟩ := List.forall_mem_cons.mp h
    simp only [List.map_cons, visitAll, bind_eq_ok, pure_eq_ok]
    exact ⟨_, σ, ha, _, σ, ih has, rfl, rfl⟩

theorem visitArguments_typed {as : List Typed} {types : List Ty}
    (hall : List.Forall₂ Ty.Accepts types (as.map Typed.type))
    (htype : ∀ a ∈ as, a.filled.type? = some a.type)
    (h : ∀ a ∈ as, visit a.plain σ = .ok a.filled σ) :
    visitArguments visit (as.map Typed.plain) types σ = .ok (as.map Typed.filled) σ := by
  induction as generalizing types with
  | nil =>
    cases hall
    rfl
  | cons a as ih =>
    cases hall with
    | cons haccepts hall =>
      obtain ⟨ha, has⟩ := List.forall_mem_cons.mp h
      obtain ⟨hta, htas⟩ := List.forall_mem_cons.mp htype
      simp only [List.map_cons, visitArguments, bind_eq_ok, pure_eq_ok, expect_eq_ok]
      exact ⟨_, σ, ha, (), σ, ⟨⟨a.type, hta, haccepts⟩, rfl⟩, _, σ, ih hall htas has, rfl, rfl⟩

/-- **Whatever has a type is accepted.** -/
theorem HasType.visit_eq_ok (h : Represents Γ σ) {e d : Node} {τ : Ty} (he : HasType Γ e d τ) :
    visit e σ = .ok d σ := by
  induction he with
  | literal hτ =>
    rw [visit_eq, attached_eq_ok, step]
    simp only [bind_eq_ok, pure_eq_ok]
    exact ⟨_, σ, hτ.eq_ok, rfl, rfl⟩
  | group hb hτ ih =>
    rw [visit_eq, attached_eq_ok, step]
    simp only [bind_eq_ok, pure_eq_ok, require_eq_ok, typeOf_eq_ok]
    exact ⟨(), σ, ⟨hb, rfl⟩, _, σ, ih, _, σ, ⟨hτ.type?, rfl⟩, rfl, rfl⟩
  | binary hρ hτ hop hl hr =>
    rw [visit_eq, attached_eq_ok, step]
    simp only [bind_eq_ok, pure_eq_ok, typeOf_eq_ok, lift_eq_ok, resultType_eq_ok_iff]
    exact ⟨_, σ, hl, _, σ, hr, _, σ, ⟨hρ.type?, rfl⟩, _, σ, ⟨hτ.type?, rfl⟩, _, σ, ⟨hop, rfl⟩, rfl,
      rfl⟩
  | @reference _ _ _ _ ref v hv =>
    rw [visit_eq, attached_eq_ok, step]
    simp only [bind_eq_ok, pure_eq_ok, lookupVariable_eq_ok]
    exact ⟨(ref, v), σ, ⟨h.findVariable?_iff.mpr hv, rfl⟩, .missing, σ, rfl, (), σ, rfl, rfl, rfl⟩
  | @item _ _ _ _ _ _ ref v hv ho ih =>
    rw [visit_eq, attached_eq_ok, step]
    simp only [bind_eq_ok, pure_eq_ok, lookupVariable_eq_ok, whenPresent, ho.isPresent, if_true]
    refine ⟨(ref, v), σ, ⟨h.findVariable?_iff.mpr hv, rfl⟩, _, σ, ih, (), σ, ?_, rfl, rfl⟩
    rw [expectPresent, if_pos ho.isPresent', expect_eq_ok]
    exact ⟨⟨_, ho.type?, .refl _⟩, rfl⟩
  | @call _ _ _ _ ref f as hsees has hall ih =>
    rw [visit_eq, attached_eq_ok, step]
    simp only [bind_eq_ok, pure_eq_ok, lookupFunction_eq_ok, List.length_map]
    exact ⟨(ref, f), σ, ⟨h.findFunction?_iff.mpr hsees, rfl⟩, _, σ,
      visitArguments_typed hall (fun a ha => (has a ha).type?) ih, rfl, rfl⟩
  | list a as has hall ih =>
    rw [visit_eq, attached_eq_ok, step]
    simp only [bind_eq_ok, pure_eq_ok, require_eq_ok, part_eq_ok, forM_expect_eq_ok]
    refine ⟨(), σ, ⟨rfl, rfl⟩, _, σ, visitAll_typed ih, a.type, σ,
      ⟨(has a List.mem_cons_self).type?, rfl⟩, (), σ, ⟨fun d hd => ?_, rfl⟩, rfl, rfl⟩
    obtain ⟨x, hx, rfl⟩ := List.mem_map.mp hd
    exact ⟨x.type, (has x hx).type?, hall x hx⟩

end PlcLang.Typing
