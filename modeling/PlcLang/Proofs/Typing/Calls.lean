import PlcLang.Proofs.Typing.Derived

/-!
# Calls in well typed programs

The functions of a program are typed in the order of the text, so each of them calls only `print`,
those before it and itself, and the globals, which come first, call only `print`.

* `Node.CallsAmong`: calls were resolved to `print` or to one of some functions.
* `mem_of_contains`: what a program consists of.
* `ChecksFunctions.callsAmong`, `callsAmong_of_wellTyped`: the order of the functions.
-/

namespace PlcLang

open Typing in
/-- If the node is a call, it was resolved to `print` or to one of the functions. -/
def Node.CallsAmong (S : Store Unit) (fs : List Node) : Node → Prop
  | call name arguments _ b _ => ∃ ref f, b = some ref ∧ S.functionAt? ref = some f ∧
      f.name = name ∧ f.arity = arguments.length ∧
      (f ∈ builtins.scope.functions ∨ ∃ m ∈ fs, m.CreatesFunction ref f)
  | _ => True

theorem Node.CallsAmong.mono {S : Store Unit} {fs fs' : List Node} {n : Node} (h : n.CallsAmong S fs)
    (hfs : fs ⊆ fs') : n.CallsAmong S fs' := by
  cases n with
  | call =>
    obtain ⟨ref, f, hb, hat, hname, harity, hf⟩ := h
    exact ⟨ref, f, hb, hat, hname, harity, hf.imp_right fun ⟨m, hm, hcreates⟩ => ⟨m, hfs hm, hcreates⟩⟩
  | _ => trivial

/-- The node is a function. -/
def Node.isFunction : Node → Bool
  | function .. => true
  | _ => false

namespace Typing

open Node

variable {S : Store Unit} {gs fs fs' : List Node} {d n : Node} {φ ψ : Frame}

/-! ## Programs and their functions -/

/-- A program consists of itself, its functions and nodes that are neither. -/
theorem mem_of_contains (hgs : ∀ g ∈ gs, g.Everywhere IsInner)
    (hfs : ∀ f ∈ fs, ∀ c ∈ f.children, c.Everywhere IsInner) (h : (source gs fs).Contains n) :
    n = source gs fs ∨ n ∈ fs ∨ n.IsInner := by
  have hall : (source gs fs).Everywhere fun n => n = source gs fs ∨ n ∈ fs ∨ n.IsInner := by
    refine everywhere_iff.mpr ⟨.inl rfl, List.forall_mem_append.mpr ⟨fun g hg n hn => ?_, fun f hf => ?_⟩⟩
    · exact .inr (.inr (hgs g hg n hn))
    · exact everywhere_iff.mpr ⟨.inr (.inl hf), fun c hc n hn => .inr (.inr (hfs f hf c hc n hn))⟩
  exact hall n h

/-- Who creates a function is one of the functions. -/
theorem mem_of_createsFunction (hgs : ∀ g ∈ gs, g.Everywhere IsInner)
    (hfs : ∀ f ∈ fs, ∀ c ∈ f.children, c.Everywhere IsInner) {ref : FunctionRef} {f : Function Unit}
    (hn : (source gs fs).Contains n) (h : n.CreatesFunction ref f) : n ∈ fs := by
  cases n with
  | function =>
    rcases mem_of_contains hgs hfs hn with hn | hn | hn
    · cases hn
    · exact hn
    · exact hn.elim
  | _ => exact h.elim

/-- A longer program has the same scopes. -/
theorem Frame.RecordedIn.append (h : φ.RecordedIn S (source gs fs)) (fs' : List Node) :
    φ.RecordedIn S (source gs (fs ++ fs')) := by
  have hcontains : (source gs fs).Everywhere fun n =>
      n = source gs fs ∨ (source gs (fs ++ fs')).Contains n := by
    refine everywhere_iff.mpr ⟨.inl rfl, fun c hc n hn => .inr (Contains.trans (.child .self ?_) hn)⟩
    refine List.mem_append.mpr ((List.mem_append.mp hc).imp_right fun hc => ?_)
    exact List.mem_append_left _ hc
  refine ⟨h.variableAt?, h.functionAt?, fun v hv => ?_, fun f hf => ?_⟩
  · obtain ⟨m, hm, hcreates⟩ := h.creates v hv
    rcases hcontains m hm with rfl | hm
    · exact hcreates.elim
    · exact ⟨m, hm, hcreates⟩
  · refine (h.createsFunction f hf).imp_right fun ⟨m, hm, hcreates⟩ => ?_
    rcases hcontains m hm with rfl | hm
    · exact hcreates.elim
    · exact ⟨m, hm, hcreates⟩

/-! ## The order of functions -/

/-- If the slots of a node are filled in a program, its calls are among the functions of it. -/
theorem callsAmong_of_bound (hgs : ∀ g ∈ gs, g.Everywhere IsInner)
    (hfs : ∀ f ∈ fs, ∀ c ∈ f.children, c.Everywhere IsInner) (h : Bound S (source gs fs) n) :
    n.CallsAmong S fs := by
  cases n with
  | call =>
    obtain ⟨ref, f, hb, hat, hname, harity, -, hf⟩ := h
    exact ⟨ref, f, hb, hat, hname, harity, hf.imp_right fun ⟨m, hm, hcreates⟩ =>
      ⟨m, mem_of_createsFunction hgs hfs hm hcreates, hcreates⟩⟩
  | _ => trivial

theorem ChecksGlobals.everywhere_isInner (h : ChecksGlobals S φ gs fs ψ) :
    ∀ g ∈ fs, g.Everywhere IsInner :=
  h.everywhere (fun he => by cases he <;> trivial) fun _ hn => hn

theorem ChecksFunctions.everywhere_isInner {k : ScopeId} (h : ChecksFunctions S φ k fs fs' ψ) :
    ∀ f ∈ fs', ∀ c ∈ f.children, c.Everywhere IsInner :=
  fun f hf => (h.everywhere (fun he => by cases he <;> trivial) (fun _ hn => hn) f hf).2

/-- **A function calls `print`, functions before it and itself.** The functions in `done` are before
all others. -/
theorem ChecksFunctions.callsAmong {done : List Node} {i : ScopeId}
    (h : ChecksFunctions S φ i fs fs' ψ) (hr : φ.RecordedIn S (source gs done))
    (hgs : ∀ g ∈ gs, g.Everywhere IsInner)
    (hdone : ∀ f ∈ done, ∀ c ∈ f.children, c.Everywhere IsInner) {k : Nat} {f : Node}
    (hf : fs'[k]? = some f) : f.Everywhere (CallsAmong S (done ++ fs'.take (k + 1))) := by
  have hinner := h.everywhere_isInner
  induction h generalizing done k with
  | nil => cases hf
  | @function φ i name parameters types returnName R ss ss' b p m fs fs' ψ hlength hR _ _ hat
      hparameters hbody _ ih =>
    obtain ⟨hfirst, hinner⟩ := List.forall_mem_cons.mp hinner
    -- the function is the last one of those that are visible in its body
    have hcontains : (source gs (done ++ [.function name parameters (types.map (some ·.name)) returnName
        ss' (some ⟨φ.id, name, types.length⟩) p])).Contains (.function name parameters
          (types.map (some ·.name)) returnName ss' (some ⟨φ.id, name, types.length⟩) p) :=
      .child .self (List.mem_append_right _ (List.mem_append_right _ List.mem_cons_self))
    have hrecorded := recorded_body
      (f := { name, parameterTypes := types, returnType := R, origin := p }) (hr.append _) hat hcontains
      hlength.symm rfl hparameters
    have hdone' := List.forall_mem_append.mpr ⟨hdone, List.forall_mem_singleton.mpr hfirst⟩
    cases k with
    | zero =>
      cases hf
      have hbound := hbody.bound hrecorded fun s hs => .child hcontains hs
      exact everywhere_iff.mpr ⟨trivial, fun s hs n hn => callsAmong_of_bound hgs hdone' (hbound s hs n hn)⟩
    | succ k =>
      have hrest := ih (hrecorded _ (List.mem_cons_of_mem _ List.mem_cons_self)) hdone' hf hinner
      rwa [List.append_assoc] at hrest

/-- Functions that a program has created have no body for the analysis. -/
theorem ChecksFunctions.body_eq_none {i : ScopeId} (h : ChecksFunctions S φ i fs fs' ψ) :
    ∀ m ∈ fs', m.isFunction = true ∧ ∀ ref f g, m.CreatesFunction ref f → S.functionAt? ref = some g →
      g.body = none := by
  induction h with
  | nil => exact List.forall_mem_nil _
  | function _ _ _ _ hat _ _ _ ih =>
    refine List.forall_mem_cons.mpr ⟨⟨rfl, fun ref f g hcreates hg => ?_⟩, ih⟩
    obtain ⟨hb, -⟩ := hcreates
    rw [← Option.some.inj hb, hat] at hg
    exact Option.some.inj hg ▸ rfl

/-- **The calls of a well typed program are well-founded**: a function calls only `print`, functions
before it and itself; a global only calls `print`. The program consists of itself, its functions and nodes
that are neither. -/
theorem callsAmong_of_wellTyped {t : Node} (h : t.WellTyped S d) :
    ∃ gs fs : List Node, d = source gs fs ∧ (∀ g ∈ gs, g.Everywhere (CallsAmong S [])) ∧
      (∀ (k : Nat) (f : Node), fs[k]? = some f → f.Everywhere (CallsAmong S (fs.take (k + 1)))) ∧
      (∀ {n : Node}, (source gs fs).Contains n → n = source gs fs ∨ n ∈ fs ∨ n.IsInner) ∧
      ∀ m ∈ fs, m.isFunction = true ∧ ∀ ref f g, m.CreatesFunction ref f →
        S.functionAt? ref = some g → g.body = none := by
  cases h with
  | @source _ gs _ fs _ _ _ _ hprint hgs hfs _ _ =>
    have hinner := hgs.everywhere_isInner
    have hcontains : ∀ g ∈ gs, (source gs []).Contains g := fun g hg =>
      .child .self (List.mem_append_left _ hg)
    obtain ⟨hφ, hbound⟩ := hgs.bound (recorded_builtins hprint) hcontains
    refine ⟨gs, fs, rfl, fun g hg n hn => ?_, fun k f hf => ?_,
      fun hn => mem_of_contains hinner hfs.everywhere_isInner hn, hfs.body_eq_none⟩
    · exact callsAmong_of_bound hinner (List.forall_mem_nil _) (hbound g hg n hn)
    · exact hfs.callsAmong hφ hinner (List.forall_mem_nil _) hf

end Typing

end PlcLang
