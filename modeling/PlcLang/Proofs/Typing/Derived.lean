import PlcLang.Proofs.Typing.Bindings

/-!
# Types and their derivations

In the tree that a typing gives to a program, a node has a type only if the rules have derived it, so
what the rules ask of expressions holds wherever they stand.

* `Node.IsDerived`: the type of a node, if it has one, has a derivation.
* `HasType.everywhere`, `Checks.everywhere`, …: what is true of all nodes with a derivation and of all
  other nodes that may stand in functions.
* `derived_of_wellTyped`: all nodes of a program.
* `typedLiterals_of_wellTyped`: so all its literals are of the language.
-/

namespace PlcLang

open Typing in
/-- The type of the node, if it has one, has a derivation. -/
def Node.IsDerived (n : Node) : Prop := ∀ τ, n.type? = some τ → ∃ Γ e, HasType Γ e n τ

/-- The node is neither a function nor a program, and if it is a switch, all its cases are cases. -/
def Node.IsInner : Node → Prop
  | function .. | source .. => False
  | switch _ cases _ => ∀ c ∈ cases, c.caseValue?.isSome = true
  | _ => True

open Typing in
/-- If the node is a literal, its value has a type. -/
def Node.HasTypedLiteral : Node → Prop
  | literal value _ _ => ∃ τ, LiteralType value τ
  | _ => True

/-- The value of a literal is a scalar. -/
theorem Typing.LiteralType.exists_scalar {v : Value} {τ : Ty} (h : LiteralType v τ) :
    ∃ a, v = .scalar a := by
  cases h <;> exact ⟨_, rfl⟩

namespace Typing

open Node

variable {S : Store Unit} {Γ : Context} {φ ψ : Frame} {n : Node}

/-! ## Parts of programs -/

section

variable {P : Node → Prop}
  (hexpression : ∀ {Γ : Context} {e e' : Node} {τ : Ty}, HasType Γ e e' τ → P e')
  (hinner : ∀ {n : Node}, n.type? = none → n.IsInner → P n)

include hinner

theorem everywhere_of_inner (h : n.type? = none) (hn : n.IsInner)
    (hchildren : ∀ c ∈ n.children, c.Everywhere P) : n.Everywhere P :=
  everywhere_iff.mpr ⟨hinner h hn, hchildren⟩

theorem everywhere_missing_of_inner : missing.Everywhere P :=
  everywhere_of_inner hinner rfl trivial (List.forall_mem_nil _)

include hexpression

theorem HasType.everywhere {e e' : Node} {τ : Ty} (h : HasType Γ e e' τ) : e'.Everywhere P := by
  have hmissing : missing.Everywhere P := everywhere_missing_of_inner hinner
  -- what stood in the slots before does not matter
  induction h with
  | literal hv =>
    exact everywhere_iff.mpr ⟨hexpression (.literal (Γ := Γ) (t := none) hv), List.forall_mem_nil _⟩
  | group hb he ih =>
    exact everywhere_iff.mpr ⟨hexpression (.group (t := none) hb he), List.forall_mem_singleton.mpr ih⟩
  | binary hl hr hop ihl ihr =>
    exact everywhere_iff.mpr ⟨hexpression (.binary (t := none) hl hr hop),
      List.forall_mem_cons.mpr ⟨ihl, List.forall_mem_singleton.mpr ihr⟩⟩
  | reference hv =>
    exact everywhere_iff.mpr ⟨hexpression (.reference (t := none) (b := none) hv),
      List.forall_mem_singleton.mpr hmissing⟩
  | item hv ho ih =>
    exact everywhere_iff.mpr ⟨hexpression (.item (t := none) (b := none) hv ho),
      List.forall_mem_singleton.mpr ih⟩
  | call as hf has haccepts ih =>
    exact everywhere_iff.mpr ⟨hexpression (.call (t := none) (b := none) as hf has haccepts),
      List.forall_mem_map.mpr ih⟩
  | list a as has haccepts ih =>
    exact everywhere_iff.mpr ⟨hexpression (.list (t := none) a as has haccepts),
      List.forall_mem_map.mpr ih⟩

theorem Initial.everywhere {typeName : Name} {value value' : Node} {τ : Ty}
    (h : Initial Γ typeName value value' τ) : value'.Everywhere P := by
  cases h with
  | inferred hτ => exact hτ.everywhere hexpression hinner
  | named => exact everywhere_missing_of_inner hinner
  | checked _ hσ _ => exact hσ.everywhere hexpression hinner

theorem Checks.everywhere {R : Ty} {n m : ScopeId} {ss ss' : List Node} (h : Checks S R Γ n ss ss' m) :
    ∀ s ∈ ss', s.Everywhere P := by
  have htype {Γ : Context} {e e' : Node} {τ : Ty} (h : HasType Γ e e' τ) : e'.Everywhere P :=
    h.everywhere hexpression hinner
  induction h with
  | nil => exact List.forall_mem_nil _
  | expressionStatement _ he _ ih | returning he _ _ ih =>
    exact List.forall_mem_cons.mpr
      ⟨everywhere_of_inner hinner rfl trivial (List.forall_mem_singleton.mpr (htype he)), ih⟩
  | declaration hi _ _ _ ih =>
    exact List.forall_mem_cons.mpr ⟨everywhere_of_inner hinner rfl trivial
      (List.forall_mem_singleton.mpr (hi.everywhere hexpression hinner)), ih⟩
  | assignment _ _ hr hv _ _ ih =>
    refine List.forall_mem_cons.mpr ⟨everywhere_of_inner hinner rfl trivial ?_, ih⟩
    exact List.forall_mem_cons.mpr ⟨htype hr, List.forall_mem_singleton.mpr (htype hv)⟩
  | conditional hc _ _ _ hthen helse ih =>
    refine List.forall_mem_cons.mpr ⟨everywhere_of_inner hinner rfl trivial ?_, ih⟩
    exact List.forall_mem_cons.mpr ⟨htype hc, List.forall_mem_append.mpr ⟨hthen, helse⟩⟩
  | switch ks default hc hks _ hdefault _ _ _ hblocks ih =>
    have hvalue : ∀ k ∈ ks ++ [default], k.value'.Everywhere P := by
      refine List.forall_mem_append.mpr ⟨fun k hk => ?_, List.forall_mem_singleton.mpr ?_⟩
      · obtain ⟨σ, hσ, -⟩ := hks k hk
        exact htype hσ
      · exact hdefault ▸ everywhere_missing_of_inner hinner
    have hcases : ∀ c ∈ (ks ++ [default]).map TypedCase.filled, c.caseValue?.isSome = true :=
      List.forall_mem_map.mpr fun _ _ => rfl
    refine List.forall_mem_cons.mpr ⟨everywhere_of_inner hinner rfl hcases ?_, ih⟩
    refine List.forall_mem_cons.mpr ⟨htype hc, List.forall_mem_map.mpr fun k hk => ?_⟩
    exact everywhere_of_inner hinner rfl trivial (List.forall_mem_cons.mpr ⟨hvalue k hk, hblocks k hk⟩)
  | whileLoop hc _ _ hbody ih =>
    refine List.forall_mem_cons.mpr ⟨everywhere_of_inner hinner rfl trivial ?_, ih⟩
    exact List.forall_mem_cons.mpr ⟨htype hc, hbody⟩

theorem ChecksGlobals.everywhere {gs gs' : List Node} (h : ChecksGlobals S φ gs gs' ψ) :
    ∀ g ∈ gs', g.Everywhere P := by
  induction h with
  | nil => exact List.forall_mem_nil _
  | global hi _ _ _ ih =>
    exact List.forall_mem_cons.mpr ⟨everywhere_of_inner hinner rfl trivial
      (List.forall_mem_singleton.mpr (hi.everywhere hexpression hinner)), ih⟩

/-- This is true of the statements of functions, not of the functions. -/
theorem ChecksFunctions.everywhere {n : ScopeId} {fs fs' : List Node}
    (h : ChecksFunctions S φ n fs fs' ψ) :
    ∀ f ∈ fs', f.type? = none ∧ ∀ c ∈ f.children, c.Everywhere P := by
  induction h with
  | nil => exact List.forall_mem_nil _
  | function _ _ _ _ _ _ hbody _ ih =>
    exact List.forall_mem_cons.mpr ⟨⟨rfl, hbody.everywhere hexpression hinner⟩, ih⟩

end

/-! ## Whole programs -/

/-- **Every type in a well typed program has a derivation.** -/
theorem derived_of_wellTyped {t d : Node} (h : t.WellTyped S d) : d.Everywhere IsDerived := by
  have hderived {n : Node} (h : n.type? = none) : n.IsDerived :=
    fun _ hτ => absurd (h.symm.trans hτ) (Option.some_ne_none _).symm
  have hexpression {Γ : Context} {e e' : Node} {τ : Ty} (he : HasType Γ e e' τ) : e'.IsDerived := by
    intro σ hσ
    obtain rfl := Option.some.inj (he.type?.symm.trans hσ)
    exact ⟨Γ, e, he⟩
  cases h with
  | source _ hgs hfs _ _ =>
    refine everywhere_iff.mpr ⟨hderived rfl, List.forall_mem_append.mpr ⟨?_, fun f hf => ?_⟩⟩
    · exact hgs.everywhere hexpression fun h _ => hderived h
    · obtain ⟨htype, hchildren⟩ := hfs.everywhere hexpression (fun h _ => hderived h) f hf
      exact everywhere_iff.mpr ⟨hderived htype, hchildren⟩

/-- All literals in a well typed program have been checked. -/
theorem typedLiterals_of_wellTyped {t d : Node} (h : t.WellTyped S d) :
    d.Everywhere HasTypedLiteral := by
  intro n hn
  cases n with
  | literal value type p =>
    obtain ⟨τ, hτ⟩ := Option.isSome_iff_exists.mp (bound_of_wellTyped h _ hn)
    obtain ⟨Γ, e, he⟩ := derived_of_wellTyped h _ hn τ hτ
    cases he with
    | literal hvalue => exact ⟨τ, hvalue⟩
  | _ => trivial

end Typing

end PlcLang
