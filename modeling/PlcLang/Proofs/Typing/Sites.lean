import PlcLang.Proofs.Typing.Decision

/-!
# Places in analyzed programs

The analysis leaves every node where it stands: what is true of the places and kinds of all nodes in a
program is true of those in the program that the analysis returns.

* `Node.Sited`: what is asked of all places and kinds in a tree.
* `Node.sited_of_analyze`: programs.
-/

namespace PlcLang

/-- All nodes in the tree have a place and a kind that go together. -/
def Node.Sited (P : Place → String → Prop) (n : Node) : Prop := n.Everywhere fun m => P m.place m.kind

namespace Node

variable {P : Place → String → Prop} {n : Node}

theorem sited_iff : n.Sited P ↔ P n.place n.kind ∧ ∀ c ∈ n.children, c.Sited P := everywhere_iff

end Node

namespace Typing

open Node

variable {P : Place → String → Prop} {S : Store Unit} {Γ : Context} {R τ : Ty} {e e' : Node}

theorem forall_filled {as : List Typed} (h : ∀ a ∈ as, a.plain.Sited P → a.filled.Sited P)
    (hplain : ∀ n ∈ as.map Typed.plain, n.Sited P) : ∀ n ∈ as.map Typed.filled, n.Sited P :=
  List.forall_mem_map.mpr fun a ha => h a ha (List.forall_mem_map.mp hplain a ha)

theorem HasType.sited (h : HasType Γ e e' τ) (he : e.Sited P) : e'.Sited P := by
  induction h with
  | literal => exact sited_iff.mpr ⟨(sited_iff.mp he).1, List.forall_mem_nil _⟩
  | reference =>
    obtain ⟨hself, hchildren⟩ := sited_iff.mp he
    exact sited_iff.mpr ⟨hself, hchildren⟩
  | group _ _ ih =>
    obtain ⟨hself, hchildren⟩ := sited_iff.mp he
    exact sited_iff.mpr ⟨hself, List.forall_mem_singleton.mpr (ih (List.forall_mem_singleton.mp hchildren))⟩
  | binary _ _ _ ihl ihr =>
    obtain ⟨hself, hchildren⟩ := sited_iff.mp he
    obtain ⟨hl, hr⟩ := List.forall_mem_cons.mp hchildren
    refine sited_iff.mpr ⟨hself, List.forall_mem_cons.mpr ⟨ihl hl, List.forall_mem_singleton.mpr ?_⟩⟩
    exact ihr (List.forall_mem_singleton.mp hr)
  | item _ _ ih =>
    obtain ⟨hself, hchildren⟩ := sited_iff.mp he
    exact sited_iff.mpr ⟨hself, List.forall_mem_singleton.mpr (ih (List.forall_mem_singleton.mp hchildren))⟩
  | call as _ _ _ ih =>
    obtain ⟨hself, hchildren⟩ := sited_iff.mp he
    exact sited_iff.mpr ⟨hself, forall_filled ih hchildren⟩
  | list a as _ _ ih =>
    obtain ⟨hself, hchildren⟩ := sited_iff.mp he
    exact sited_iff.mpr ⟨hself, forall_filled ih hchildren⟩

theorem Initial.sited {typeName : Name} (h : Initial Γ typeName e e' τ) (he : e.Sited P) : e'.Sited P := by
  cases h with
  | inferred h => exact h.sited he
  | named => exact he
  | checked _ h => exact h.sited he

theorem Checks.sited {n m : ScopeId} {ss ss' : List Node} (h : Checks S R Γ n ss ss' m)
    (hss : ∀ s ∈ ss, s.Sited P) : ∀ s ∈ ss', s.Sited P := by
  induction h with
  | nil => exact hss
  | expressionStatement _ he _ ih | returning he _ _ ih =>
    obtain ⟨hs, hss⟩ := List.forall_mem_cons.mp hss
    obtain ⟨hself, hchildren⟩ := sited_iff.mp hs
    refine List.forall_mem_cons.mpr ⟨sited_iff.mpr ⟨hself, ?_⟩, ih hss⟩
    exact List.forall_mem_singleton.mpr (he.sited (List.forall_mem_singleton.mp hchildren))
  | declaration hvalue _ _ _ ih =>
    obtain ⟨hs, hss⟩ := List.forall_mem_cons.mp hss
    obtain ⟨hself, hchildren⟩ := sited_iff.mp hs
    refine List.forall_mem_cons.mpr ⟨sited_iff.mpr ⟨hself, ?_⟩, ih hss⟩
    exact List.forall_mem_singleton.mpr (hvalue.sited (List.forall_mem_singleton.mp hchildren))
  | assignment _ _ hr hv _ _ ih =>
    obtain ⟨hs, hss⟩ := List.forall_mem_cons.mp hss
    obtain ⟨hself, hchildren⟩ := sited_iff.mp hs
    obtain ⟨hreceiver, hvalue⟩ := List.forall_mem_cons.mp hchildren
    refine List.forall_mem_cons.mpr ⟨sited_iff.mpr ⟨hself, ?_⟩, ih hss⟩
    refine List.forall_mem_cons.mpr ⟨hr.sited hreceiver, List.forall_mem_singleton.mpr ?_⟩
    exact hv.sited (List.forall_mem_singleton.mp hvalue)
  | conditional hc _ _ _ ihts ihes ih =>
    obtain ⟨hs, hss⟩ := List.forall_mem_cons.mp hss
    obtain ⟨hself, hchildren⟩ := sited_iff.mp hs
    obtain ⟨hcondition, hblocks⟩ := List.forall_mem_cons.mp hchildren
    obtain ⟨hthen, helse⟩ := List.forall_mem_append.mp hblocks
    refine List.forall_mem_cons.mpr ⟨sited_iff.mpr ⟨hself, ?_⟩, ih hss⟩
    exact List.forall_mem_cons.mpr ⟨hc.sited hcondition, List.forall_mem_append.mpr ⟨ihts hthen, ihes helse⟩⟩
  | switch ks default hc hvalues hdefault hdefault' _ _ _ ihblocks ih =>
    obtain ⟨hs, hss⟩ := List.forall_mem_cons.mp hss
    obtain ⟨hself, hchildren⟩ := sited_iff.mp hs
    obtain ⟨hcondition, hcases⟩ := List.forall_mem_cons.mp hchildren
    refine List.forall_mem_cons.mpr ⟨sited_iff.mpr ⟨hself, ?_⟩, ih hss⟩
    refine List.forall_mem_cons.mpr ⟨hc.sited hcondition, List.forall_mem_map.mpr fun k hk => ?_⟩
    obtain ⟨hcase, hparts⟩ := sited_iff.mp (List.forall_mem_map.mp hcases k hk)
    obtain ⟨hvalue, hblock⟩ := List.forall_mem_cons.mp hparts
    refine sited_iff.mpr ⟨hcase, List.forall_mem_cons.mpr ⟨?_, ihblocks k hk hblock⟩⟩
    rcases List.mem_append.mp hk with hk | hk
    · obtain ⟨σ, hσ, -⟩ := hvalues k hk
      exact hσ.sited hvalue
    · obtain rfl := List.mem_singleton.mp hk
      rwa [hdefault', ← hdefault]
  | whileLoop hc _ _ ihts ih =>
    obtain ⟨hs, hss⟩ := List.forall_mem_cons.mp hss
    obtain ⟨hself, hchildren⟩ := sited_iff.mp hs
    obtain ⟨hcondition, hstatements⟩ := List.forall_mem_cons.mp hchildren
    refine List.forall_mem_cons.mpr ⟨sited_iff.mpr ⟨hself, ?_⟩, ih hss⟩
    exact List.forall_mem_cons.mpr ⟨hc.sited hcondition, ihts hstatements⟩

theorem ChecksGlobals.sited {φ ψ : Frame} {gs gs' : List Node} (h : ChecksGlobals S φ gs gs' ψ)
    (hgs : ∀ g ∈ gs, g.Sited P) : ∀ g ∈ gs', g.Sited P := by
  induction h with
  | nil => exact hgs
  | global hvalue _ _ _ ih =>
    obtain ⟨hg, hgs⟩ := List.forall_mem_cons.mp hgs
    obtain ⟨hself, hchildren⟩ := sited_iff.mp hg
    refine List.forall_mem_cons.mpr ⟨sited_iff.mpr ⟨hself, ?_⟩, ih hgs⟩
    exact List.forall_mem_singleton.mpr (hvalue.sited (List.forall_mem_singleton.mp hchildren))

theorem ChecksFunctions.sited {φ ψ : Frame} {n : ScopeId} {fs fs' : List Node}
    (h : ChecksFunctions S φ n fs fs' ψ) (hfs : ∀ f ∈ fs, f.Sited P) : ∀ f ∈ fs', f.Sited P := by
  induction h with
  | nil => exact hfs
  | function _ _ _ _ _ _ hss _ ih =>
    obtain ⟨hf, hfs⟩ := List.forall_mem_cons.mp hfs
    obtain ⟨hself, hchildren⟩ := sited_iff.mp hf
    exact List.forall_mem_cons.mpr ⟨sited_iff.mpr ⟨hself, hss.sited hchildren⟩, ih hfs⟩

end Typing

/-- **The analysis leaves every node where it stands.** -/
theorem Node.sited_of_analyze {P : Place → String → Prop} {text : String} {t d : Node}
    (h : parse? text = some t) (hd : t.analyze = .ok d) (ht : t.Sited P) : d.Sited P := by
  obtain ⟨σ, -, hwell⟩ := exists_visit_wellTyped h hd
  obtain ⟨hself, hchildren⟩ := sited_iff.mp ht
  cases hwell with
  | source _ hgs hfs _ _ =>
    obtain ⟨hglobals, hfunctions⟩ := List.forall_mem_append.mp hchildren
    refine sited_iff.mpr ⟨hself, List.forall_mem_append.mpr ⟨?_, ?_⟩⟩
    · exact hgs.sited hglobals
    · exact hfs.sited hfunctions

end PlcLang
