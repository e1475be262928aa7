import PlcLang.Proofs.Grammar.Tokens
import PlcLang.Proofs.Typing.Decision

/-!
# Trees that differ in their slots

The analysis fills the slots for types and bindings and changes nothing else. Whatever is in the slots
and wherever the parts stand, the shape of a tree is the same.

* `Node.IsProgram.of_skeleton_eq`: the shape of a program.
* `Node.skeleton_of_analyze`: what the analysis returns.
-/

namespace PlcLang

namespace Node

variable {N : String → Prop} {n m : Node} {ns ms : List Node}

theorem level?_skeleton (n : Node) : n.skeleton.level? = n.level? := by
  cases n <;> rfl

theorem level?_of_skeleton_eq (h : m.skeleton = n.skeleton) : m.level? = n.level? := by
  rw [← level?_skeleton, h, level?_skeleton]

theorem eq_missing_of_skeleton_eq (h : m.skeleton = Node.missing.skeleton) : m = .missing := by
  cases m <;> simp [skeleton] at h ⊢

/-- What is passed on to trees of one skeleton is passed on to lists of them. -/
theorem forall_of_skeletons_eq {P : Node → Prop} (h : skeletons ms = skeletons ns)
    (hn : ∀ n ∈ ns, ∀ m, m.skeleton = n.skeleton → P m) : ∀ m ∈ ms, P m := by
  rw [skeletons_eq_map, skeletons_eq_map] at h
  intro m hm
  obtain ⟨n, hmem, hskeleton⟩ := List.mem_map.mp (h ▸ List.mem_map_of_mem hm)
  exact hn n hmem m hskeleton.symm

/-! ## Shapes -/

theorem IsExpression.of_skeleton_eq (h : n.IsExpression N) (hm : m.skeleton = n.skeleton) :
    m.IsExpression N := by
  induction h generalizing m with
  | literal hv =>
    cases m <;> simp only [skeleton, reduceCtorEq, literal.injEq] at hm
    obtain ⟨rfl, -⟩ := hm
    exact .literal hv
  | group _ ih =>
    cases m <;> simp only [skeleton, reduceCtorEq, group.injEq] at hm
    exact .group (ih hm.1)
  | binary hlevel _ hl _ hr ihl ihr =>
    cases m <;> simp only [skeleton, reduceCtorEq, binary.injEq] at hm
    obtain ⟨rfl, hleft, hright, -⟩ := hm
    refine .binary hlevel (ihl hleft) ?_ (ihr hright) ?_
    · exact level?_of_skeleton_eq hleft ▸ hl
    · exact level?_of_skeleton_eq hright ▸ hr
  | reference hname =>
    cases m <;> simp only [skeleton, reduceCtorEq, access.injEq] at hm
    obtain ⟨rfl, hoffset, -⟩ := hm
    obtain rfl := eq_missing_of_skeleton_eq hoffset
    exact .reference hname
  | item hname _ ih =>
    cases m <;> simp only [skeleton, reduceCtorEq, access.injEq] at hm
    obtain ⟨rfl, hoffset, -⟩ := hm
    exact .item hname (ih hoffset)
  | call hname _ ih =>
    cases m <;> simp only [skeleton, reduceCtorEq, call.injEq] at hm
    obtain ⟨rfl, has, -⟩ := hm
    exact .call hname (forall_of_skeletons_eq has fun a ha _ hb => ih a ha hb)

theorem IsOptional.of_skeleton_eq (h : n.IsOptional N) (hm : m.skeleton = n.skeleton) :
    m.IsOptional N := by
  rcases h with rfl | h
  · exact .inl (eq_missing_of_skeleton_eq hm)
  · exact .inr (h.of_skeleton_eq hm)

/-- The cases of a switch that has the skeleton of one with the given cases. -/
theorem exists_arms_of_skeletons_eq {arms : List Arm} {ss cs : List Node} {q : Place}
    (h : skeletons cs = skeletons (arms.map ofArm ++ [.case .missing ss q])) :
    ∃ (arms' : List Arm) (ss' : List Node) (q' : Place),
      cs = arms'.map ofArm ++ [.case .missing ss' q'] ∧ skeletons ss' = skeletons ss ∧
        ∀ a' ∈ arms', ∃ a ∈ arms,
          a'.1.skeleton = a.1.skeleton ∧ skeletons a'.2.1 = skeletons a.2.1 := by
  induction arms generalizing cs with
  | nil =>
    obtain _ | ⟨c, _ | ⟨c', cs⟩⟩ := cs
    · simp [skeletons] at h
    · cases c <;> simp [skeletons, skeleton] at h
      obtain ⟨hvalue, hss⟩ := h
      obtain rfl := eq_missing_of_skeleton_eq hvalue
      exact ⟨[], _, _, rfl, hss, nofun⟩
    · simp [skeletons] at h
  | cons a arms ih =>
    cases cs with
    | nil => simp [skeletons] at h
    | cons c cs =>
      rw [List.map_cons, List.cons_append, skeletons, skeletons] at h
      obtain ⟨hc, hcs⟩ := List.cons.inj h
      obtain ⟨arms', ss', q', rfl, hss, harms⟩ := ih hcs
      cases c <;> simp only [ofArm, skeleton, reduceCtorEq, case.injEq] at hc
      refine ⟨(_, _, _) :: arms', ss', q', rfl, hss, List.forall_mem_cons.mpr ⟨?_, fun a' ha' => ?_⟩⟩
      · exact ⟨a, List.mem_cons_self, hc.1, hc.2.1⟩
      · obtain ⟨b, hb, heq⟩ := harms a' ha'
        exact ⟨b, List.mem_cons_of_mem _ hb, heq⟩

theorem IsStatement.of_skeleton_eq (h : n.IsStatement N) (hm : m.skeleton = n.skeleton) :
    m.IsStatement N := by
  induction h generalizing m with
  | expressionStatement he =>
    cases m <;> simp only [skeleton, reduceCtorEq, expressionStatement.injEq] at hm
    exact .expressionStatement (he.of_skeleton_eq hm.1)
  | declaration hname htype hvalue =>
    cases m <;> simp only [skeleton, reduceCtorEq, declaration.injEq] at hm
    obtain ⟨rfl, rfl, hm, -⟩ := hm
    exact .declaration hname htype (hvalue.of_skeleton_eq hm)
  | assignment hl hr =>
    cases m <;> simp only [skeleton, reduceCtorEq, assignment.injEq] at hm
    exact .assignment (hl.of_skeleton_eq hm.1) (hr.of_skeleton_eq hm.2.1)
  | conditional hc _ _ ihs iht =>
    cases m <;> simp only [skeleton, reduceCtorEq, conditional.injEq] at hm
    obtain ⟨hc', hss, hts, -⟩ := hm
    exact .conditional (hc.of_skeleton_eq hc') (forall_of_skeletons_eq hss fun s hs _ ht => ihs s hs ht)
      (forall_of_skeletons_eq hts fun s hs _ ht => iht s hs ht)
  | switch arms hc hvalues _ _ ihblocks ihss =>
    cases m <;> simp only [skeleton, reduceCtorEq, switch.injEq] at hm
    obtain ⟨hc', hcases, -⟩ := hm
    obtain ⟨arms', ss', q', rfl, hss, harms⟩ := exists_arms_of_skeletons_eq hcases
    refine .switch arms' (hc.of_skeleton_eq hc') (fun a' ha' => ?_) (fun a' ha' => ?_)
      (forall_of_skeletons_eq hss fun s hs _ ht => ihss s hs ht)
    · obtain ⟨a, ha, hvalue, -⟩ := harms a' ha'
      exact (hvalues a ha).of_skeleton_eq hvalue
    · obtain ⟨a, ha, -, hblock⟩ := harms a' ha'
      exact forall_of_skeletons_eq hblock fun s hs _ ht => ihblocks a ha s hs ht
  | whileLoop hc _ ih =>
    cases m <;> simp only [skeleton, reduceCtorEq, whileLoop.injEq] at hm
    obtain ⟨hc', hss, -⟩ := hm
    exact .whileLoop (hc.of_skeleton_eq hc') (forall_of_skeletons_eq hss fun s hs _ ht => ih s hs ht)
  | returning he =>
    cases m <;> simp only [skeleton, reduceCtorEq, returning.injEq] at hm
    exact .returning (he.of_skeleton_eq hm.1)

theorem IsGlobal.of_skeleton_eq (h : n.IsGlobal N) (hm : m.skeleton = n.skeleton) :
    m.IsGlobal N := by
  cases h with
  | list hname htype hes =>
    cases m <;> simp only [skeleton, reduceCtorEq, global.injEq] at hm
    obtain ⟨rfl, rfl, rfl, hvalue, -⟩ := hm
    rename_i value _ _
    cases value <;> simp only [skeleton, reduceCtorEq, listLiteral.injEq] at hvalue
    rename_i es' _ _
    have hall := forall_of_skeletons_eq hvalue.1 fun e he _ hb => (hes e he).of_skeleton_eq hb
    cases es' with
    | nil => simp [skeletons] at hvalue
    | cons e es => exact .list hname htype hall
  | mutable hname htype hvalue =>
    cases m <;> simp only [skeleton, reduceCtorEq, global.injEq] at hm
    obtain ⟨rfl, rfl, rfl, hm, -⟩ := hm
    exact .mutable hname htype (hvalue.of_skeleton_eq hm)
  | immutable hname htype hvalue =>
    cases m <;> simp only [skeleton, reduceCtorEq, global.injEq] at hm
    obtain ⟨rfl, rfl, rfl, hm, -⟩ := hm
    exact .immutable hname htype (hvalue.of_skeleton_eq hm)

theorem IsFunction.of_skeleton_eq (h : n.IsFunction N) (hm : m.skeleton = n.skeleton) :
    m.IsFunction N := by
  cases h with
  | function parameters hname hparameters hreturn hss =>
    cases m <;> simp only [skeleton, reduceCtorEq, function.injEq] at hm
    obtain ⟨rfl, rfl, rfl, rfl, hm, -⟩ := hm
    exact .function parameters hname hparameters hreturn
      (forall_of_skeletons_eq hm fun s hs _ ht => (hss s hs).of_skeleton_eq ht)

/-- Whatever its slots hold, a tree with the skeleton of a program is a program. -/
theorem IsProgram.of_skeleton_eq (h : n.IsProgram N) (hm : m.skeleton = n.skeleton) :
    m.IsProgram N := by
  cases h with
  | source hgs hfs =>
    cases m <;> simp only [skeleton, reduceCtorEq, source.injEq] at hm
    exact .source (forall_of_skeletons_eq hm.1 fun g hg _ h => (hgs g hg).of_skeleton_eq h)
      (forall_of_skeletons_eq hm.2 fun f hf _ h => (hfs f hf).of_skeleton_eq h)

end Node

/-! ## Analysis -/

namespace Typing

variable {S : Store Unit} {Γ : Context} {R τ : Ty} {e e' : Node}

theorem skeletons_typed {as : List Typed} (h : ∀ a ∈ as, a.filled.skeleton = a.plain.skeleton) :
    Node.skeletons (as.map Typed.filled) = Node.skeletons (as.map Typed.plain) := by
  simp only [Node.skeletons_eq_map, List.map_map]
  exact List.map_congr_left h

theorem HasType.skeleton_eq (h : HasType Γ e e' τ) : e'.skeleton = e.skeleton := by
  induction h with
  | literal | reference => rfl
  | group _ _ ih => simp only [Node.skeleton, ih]
  | binary _ _ _ ihl ihr => simp only [Node.skeleton, ihl, ihr]
  | item _ _ ih => simp only [Node.skeleton, ih]
  | call as _ _ _ ih => simp only [Node.skeleton, skeletons_typed ih]
  | list a as _ _ ih => simp only [Node.skeleton, skeletons_typed ih]

theorem Initial.skeleton_eq {typeName : Name} (h : Initial Γ typeName e e' τ) :
    e'.skeleton = e.skeleton := by
  cases h with
  | inferred h => exact h.skeleton_eq
  | named => rfl
  | checked _ h => exact h.skeleton_eq

theorem Checks.skeletons_eq {n m : ScopeId} {ss ss' : List Node} (h : Checks S R Γ n ss ss' m) :
    Node.skeletons ss' = Node.skeletons ss := by
  induction h with
  | nil => rfl
  | expressionStatement _ he _ ih | returning he _ _ ih =>
    simp only [Node.skeletons, Node.skeleton, he.skeleton_eq, ih]
  | declaration hvalue _ _ _ ih => simp only [Node.skeletons, Node.skeleton, hvalue.skeleton_eq, ih]
  | assignment _ _ hr hv _ _ ih =>
    have hreceiver := hr.skeleton_eq
    simp only [Node.skeletons, Node.skeleton] at hreceiver ⊢
    rw [hreceiver, hv.skeleton_eq, ih]
  | conditional hc _ _ _ ihts ihes ih =>
    rw [Node.skeletons, Node.skeletons, Node.skeleton, Node.skeleton, hc.skeleton_eq, ihts, ihes, ih]
  | switch ks default hc hvalues hdefault hdefault' _ _ _ ihblocks ih =>
    have hcase : ∀ k ∈ ks ++ [default], k.filled.skeleton = k.plain.skeleton := by
      intro k hk
      have hvalue : k.value'.skeleton = k.value.skeleton := by
        rcases List.mem_append.mp hk with hk | hk
        · obtain ⟨σ, hσ, -⟩ := hvalues k hk
          exact hσ.skeleton_eq
        · rw [List.mem_singleton.mp hk, hdefault, hdefault']
      rw [TypedCase.filled, TypedCase.plain, Node.skeleton, Node.skeleton, hvalue, ihblocks k hk]
    have hcases : Node.skeletons ((ks ++ [default]).map TypedCase.filled) =
        Node.skeletons ((ks ++ [default]).map TypedCase.plain) := by
      simp only [Node.skeletons_eq_map, List.map_map]
      exact List.map_congr_left hcase
    rw [Node.skeletons, Node.skeletons, Node.skeleton, Node.skeleton, hc.skeleton_eq, hcases, ih]
  | whileLoop hc _ _ ihts ih =>
    rw [Node.skeletons, Node.skeletons, Node.skeleton, Node.skeleton, hc.skeleton_eq, ihts, ih]

theorem ChecksGlobals.skeletons_eq {φ ψ : Frame} {gs gs' : List Node}
    (h : ChecksGlobals S φ gs gs' ψ) : Node.skeletons gs' = Node.skeletons gs := by
  induction h with
  | nil => rfl
  | global hvalue _ _ _ ih => simp only [Node.skeletons, Node.skeleton, hvalue.skeleton_eq, ih]

theorem ChecksFunctions.skeletons_eq {φ ψ : Frame} {n : ScopeId} {fs fs' : List Node}
    (h : ChecksFunctions S φ n fs fs' ψ) : Node.skeletons fs' = Node.skeletons fs := by
  induction h with
  | nil => rfl
  | function _ _ _ _ _ _ hss _ ih => simp only [Node.skeletons, Node.skeleton, hss.skeletons_eq, ih]

end Typing

/-- **The analysis fills slots** and changes nothing else. -/
theorem Node.skeleton_of_analyze {text : String} {t d : Node} (h : parse? text = some t)
    (hd : t.analyze = .ok d) : d.skeleton = t.skeleton := by
  obtain ⟨σ, -, hwell⟩ := exists_visit_wellTyped h hd
  cases hwell with
  | source _ hgs hfs _ _ => rw [skeleton, skeleton, hgs.skeletons_eq, hfs.skeletons_eq]

end PlcLang
