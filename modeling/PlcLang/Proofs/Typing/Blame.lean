import PlcLang.Proofs.Evaluation.Permuted
import PlcLang.Proofs.Typing.Visits

/-!
# What an analysis blames

An analysis blames a node of the program. It blames the program itself just if all parts of it have been
analyzed and its main function is missing or does not return integers.

* `Node.MainReturns`, `Node.LacksIntegerMain`: what the main function returns.
* `Analysis.Prepares`: all parts of a program have been analyzed.
* `Analysis.Prepares.or_inside`: how the analysis of a program fails.
* `Analysis.Reached`: the visits in an analysis.
* `Analysis.blames_of_analyze`: the node to blame.
-/

namespace PlcLang

namespace Node

/-- The node is a function that returns values of the type. -/
def Returns (R : Ty) : Node → Prop
  | function _ _ _ returnName .. => Typing.ReturnType returnName R
  | _ => False

/-- A main function of the program returns values of the type. -/
def MainReturns (t : Node) (R : Ty) : Prop :=
  ∃ n ∈ t.children, n.signature? = some (some "main", 0) ∧ n.Returns R

/-- The main function of the program is missing or does not return integers. -/
def LacksIntegerMain (t : Node) : Prop := t.LacksMain ∨ ∃ R, R ≠ .integer ∧ t.MainReturns R

end Node

namespace Typing

open Walk Analysis

variable {S : Store Unit} {φ ψ : Frame} {name : Name} {R R' : Ty}

theorem eq_of_returnType (h : ReturnType name R) (h' : ReturnType name R') : R = R' := by
  have hR := (returnedType_eq_ok (σ := Analysis.start {} none)).mpr ⟨h, rfl⟩
  have hR' := (returnedType_eq_ok (σ := Analysis.start {} none)).mpr ⟨h', rfl⟩
  cases hR.symm.trans hR'
  rfl

theorem eq_of_returns {n : Node} (h : n.Returns R) (h' : n.Returns R') : R = R' := by
  cases n with
  | function => exact eq_of_returnType h h'
  | _ => exact h.elim

/-- What is seen in a single scope. -/
theorem seesFunction_singleton {arity : Nat} {ref : FunctionRef} {f : Function Unit} :
    SeesFunction name arity [φ] ref f ↔
      ref = ⟨φ.id, name, arity⟩ ∧ f ∈ φ.scope.functions ∧ f.signature = (name, arity) := by
  constructor
  · rintro (⟨hf, hname, harity⟩ | ⟨-, ⟨⟩⟩)
    exact ⟨rfl, hf, Prod.ext hname harity⟩
  · rintro ⟨rfl, hf, hsignature⟩
    exact .here hf (congrArg Prod.fst hsignature) (congrArg Prod.snd hsignature)

/-- Globals add no functions. -/
theorem ChecksGlobals.functions_eq {gs gs' : List Node} (h : ChecksGlobals S φ gs gs' ψ) :
    ψ.scope.functions = φ.scope.functions := by
  induction h with
  | nil => rfl
  | global _ _ _ _ ih => exact ih

/-- The functions that are added are those that nodes declare. -/
theorem ChecksFunctions.mem_functions {n : ScopeId} {fs fs' : List Node}
    (h : ChecksFunctions S φ n fs fs' ψ) :
    (∀ f ∈ φ.scope.functions, f ∈ ψ.scope.functions) ∧
    (∀ f ∈ ψ.scope.functions, f ∈ φ.scope.functions ∨
      ∃ m ∈ fs, m.signature? = some f.signature ∧ m.Returns f.returnType) ∧
    ∀ m ∈ fs, ∃ f ∈ ψ.scope.functions, m.signature? = some f.signature ∧ m.Returns f.returnType := by
  induction h with
  | nil => exact ⟨fun _ => id, fun _ => .inl, List.forall_mem_nil _⟩
  | @function φ n name parameters types returnName R ss ss' b p m fs fs' ψ hlength hR _ _ _ _ _ _ ih =>
    obtain ⟨hsub, hmade, hmakes⟩ := ih
    have hself : (Node.function name parameters (types.map (some ·.name)) returnName ss b p).signature? =
        some (name, types.length) := congrArg (fun k => some (name, k)) hlength
    refine ⟨fun f hf => hsub f (List.mem_append_left _ hf), fun f hf => ?_, ?_⟩
    · rcases hmade f hf with hf | ⟨k, hk, hmade⟩
      · rcases List.mem_append.mp hf with hf | hf
        · exact .inl hf
        · obtain rfl := List.mem_singleton.mp hf
          exact .inr ⟨_, List.mem_cons_self, hself, hR⟩
      · exact .inr ⟨k, List.mem_cons_of_mem _ hk, hmade⟩
    · refine List.forall_mem_cons.mpr ⟨?_, hmakes⟩
      exact ⟨_, hsub _ (List.mem_append_right _ (List.mem_singleton_self _)), hself, hR⟩

end Typing

namespace Analysis

open Walk Typing

variable {N : String → Prop} {t : Node} {σ : State Unit (Option Ty)}

/-- In the state `σ`, all parts of a program have been analyzed. -/
def Prepares (t : Node) (σ : State Unit (Option Ty)) : Prop :=
  ∃ ns, visitAll visit t.children (start {} none) = .ok ns σ

/-- Several nodes are analyzed one after another. -/
theorem visitAll_append_eq_ok {ns ms ks : List Node} {σ τ : State Unit (Option Ty)} :
    visitAll visit (ns ++ ms) σ = .ok ks τ ↔
      ∃ ns' ms' υ, visitAll visit ns σ = .ok ns' υ ∧ visitAll visit ms υ = .ok ms' τ ∧ ks = ns' ++ ms' := by
  induction ns generalizing σ τ ks with
  | nil => simp [visitAll, eq_comm]
  | cons n ns ih =>
    simp only [List.cons_append, visitAll, bind_eq_ok, pure_eq_ok, ih]
    constructor
    · rintro ⟨n', σ₁, hn, _, _, ⟨ns', ms', υ, hns, hms, rfl⟩, rfl, rfl⟩
      exact ⟨n' :: ns', ms', υ, ⟨n', σ₁, hn, ns', υ, hns, rfl, rfl⟩, hms, rfl⟩
    · rintro ⟨_, ms', υ, ⟨n', σ₁, hn, ns', _, hns, rfl, rfl⟩, hms, rfl⟩
      exact ⟨n', σ₁, hn, _, _, ⟨ns', ms', _, hns, hms, rfl⟩, rfl, rfl⟩

section

variable {f : Function Unit} {ref : FunctionRef} {R : Ty}

/-- When all parts of a program are analyzed, its functions are those in its scope that are not built
in. -/
theorem Prepares.exists_represents (ht : t.IsProgram N) (h : Prepares t σ) :
    ∃ ψ, Represents [ψ] σ ∧
      (∀ f ∈ ψ.scope.functions, f ∈ builtins.scope.functions ∨
        ∃ n ∈ t.children, n.signature? = some f.signature ∧ n.Returns f.returnType) ∧
      ∀ n ∈ t.children, ∀ x, n.signature? = some x →
        ∃ f ∈ ψ.scope.functions, f.signature = x ∧ n.Returns f.returnType := by
  obtain ⟨ns, h⟩ := h
  cases ht with
  | @source gs fs hgs hfs =>
    obtain ⟨gs', fs', σ₁, hg, hf, -⟩ := visitAll_append_eq_ok.mp h
    obtain ⟨-, -, φ, hφ, hglobals⟩ := checksGlobals_of_visitAll hgs represents_start hg
    obtain ⟨hkeeps, ψ, hψ, hfunctions⟩ := checksFunctions_of_visitAll hfs hφ hf
    obtain ⟨-, hmade, hmakes⟩ := (hfunctions (.refl _)).mem_functions
    refine ⟨ψ, hψ, fun f hf => ?_, fun n hn x hx => ?_⟩
    · rw [(hglobals hkeeps.bindings).functions_eq] at hmade
      exact (hmade f hf).imp_right fun ⟨n, hn, hrest⟩ => ⟨n, List.mem_append_right _ hn, hrest⟩
    · rcases List.mem_append.mp hn with hn | hn
      · have hglobal : n.signature? = none := by
          cases hgs n hn <;> rfl
        cases hglobal.symm.trans hx
      · obtain ⟨f, hf, hsignature, hreturns⟩ := hmakes n hn
        exact ⟨f, hf, Option.some.inj (hsignature.symm.trans hx), hreturns⟩

/-- The main function that is found was declared. -/
theorem Prepares.mainReturns (ht : t.IsProgram N) (h : Prepares t σ)
    (hfind : σ.store.findFunction? σ.env "main" 0 = some (ref, f)) : t.MainReturns f.returnType := by
  obtain ⟨ψ, hψ, hmade, -⟩ := h.exists_represents ht
  obtain ⟨-, hf, hsignature⟩ := seesFunction_singleton.mp (hψ.findFunction?_iff.mp hfind)
  rcases hmade f hf with hprint | ⟨n, hn, hn', hreturns⟩
  · obtain rfl := List.mem_singleton.mp hprint
    exact absurd hsignature (by decide)
  · exact ⟨n, hn, hsignature ▸ hn', hreturns⟩

/-- The main function that was declared is found. -/
theorem Prepares.exists_findFunction? (ht : t.IsProgram N) (h : Prepares t σ) {n : Node}
    (hn : n ∈ t.children) (hsignature : n.signature? = some (some "main", 0)) :
    ∃ ref f, σ.store.findFunction? σ.env "main" 0 = some (ref, f) ∧ n.Returns f.returnType := by
  obtain ⟨ψ, hψ, -, hmakes⟩ := h.exists_represents ht
  obtain ⟨f, hf, hmain, hreturns⟩ := hmakes n hn _ hsignature
  exact ⟨_, f, hψ.findFunction?_iff.mpr (seesFunction_singleton.mpr ⟨rfl, hf, hmain⟩), hreturns⟩

/-- What is found is no function that returns integers if the program lacks one. -/
theorem Prepares.lacksIntegerMain_iff (ht : t.IsProgram N) (h : Prepares t σ) :
    t.LacksIntegerMain ↔
      ∀ ref f, σ.store.findFunction? σ.env "main" 0 = some (ref, f) → f.returnType ≠ .integer := by
  constructor
  · rintro (hlacks | ⟨R, hR, n, hn, hsignature, hreturns⟩) ref f hfind
    · obtain ⟨n, hn, hsignature, -⟩ := h.mainReturns ht hfind
      exact absurd hsignature (hlacks n hn)
    · obtain ⟨ref', f', hfind', hreturns'⟩ := h.exists_findFunction? ht hn hsignature
      cases hfind.symm.trans hfind'
      exact eq_of_returns hreturns hreturns' ▸ hR
  · intro hall
    by_cases hlacks : t.LacksMain
    · exact .inl hlacks
    · simp only [Node.LacksMain, not_forall, not_not] at hlacks
      obtain ⟨n, hn, hsignature⟩ := hlacks
      obtain ⟨ref, f, hfind, hreturns⟩ := h.exists_findFunction? ht hn hsignature
      exact .inr ⟨f.returnType, hall ref f hfind, n, hn, hsignature, hreturns⟩

/-- A program whose main function is missing or does not return integers is at fault itself. -/
theorem Prepares.visit_eq (ht : t.IsProgram N) (h : Prepares t σ) (hmain : t.LacksIntegerMain) :
    ∃ f : Fault, visit t (start {} none) = .error (.fault (f.attachedTo t)) σ := by
  have hall := (h.lacksIntegerMain_iff ht).mp hmain
  obtain ⟨ns, h⟩ := h
  cases ht with
  | @source gs fs =>
    obtain ⟨gs', fs', σ₁, hg, hf, -⟩ := visitAll_append_eq_ok.mp h
    rw [visit_eq]
    cases hfind : σ.store.findFunction? σ.env "main" 0 with
    | none =>
      have hstep : step visit (.source gs fs) (start {} none) =
          .error (.raised (.undeclaredFunction "main" 0)) σ := by
        rw [step, bind_of_eq_ok hg, bind_of_eq_ok hf, bind_of_eq_error (lookupFunction_of_none hfind)]
      exact ⟨_, attached_of_eq_error hstep⟩
    | some found =>
      obtain ⟨ref, f⟩ := found
      have hstep : step visit (.source gs fs) (start {} none) =
          .error (.raised (.mainReturns f.returnType)) σ := by
        have hrequire : require (decide (f.returnType = .integer)) (.mainReturns f.returnType) σ =
            .error (.raised (.mainReturns f.returnType)) σ := by
          rw [require, if_neg (by simpa using hall ref f hfind)]
          rfl
        rw [step, bind_of_eq_ok hg, bind_of_eq_ok hf,
          bind_of_eq_ok (lookupFunction_eq_ok.mpr ⟨hfind, rfl⟩)]
        exact bind_of_eq_error hrequire
      exact ⟨_, attached_of_eq_error hstep⟩

/-- The analysis of nodes only has faults that are attached to nodes. -/
theorem visitAll_ne_raised {nodes : List Node} {τ υ : State Unit (Option Ty)} {f : Fault}
    (hnodes : ∀ n ∈ nodes, n.isPresent = true) : visitAll visit nodes τ ≠ .error (.raised f) υ := by
  intro h
  have hrelays : Relays (· ∈ nodes) (fun _ => False) fun V => visitAll V nodes :=
    visitAll_relays fun _ hn => hn
  obtain ⟨n, τ', υ', hn, -, hfails⟩ := (hrelays.exists_visits h).resolve_left id
  exact Walker.Fails.not_isBare (W := walker) (d := 0) ⟨υ', hfails⟩ (hnodes n hn) (.raised f)

/-- **How the analysis of a program fails.** All parts of the program have been analyzed and its main
function is missing or does not return integers, or a visit inside fails. -/
theorem Prepares.or_inside {e : Located Fault} (ht : t.IsProgram N)
    (h : walker.Fails 0 t (start {} none) e) :
    ((∃ σ, Prepares t σ) ∧ t.LacksIntegerMain) ∨ ∃ n υ, n.isPresent = true ∧
      walker.Visits 0 t (start {} none) n υ ∧ walker.Fails 0 n υ e := by
  rcases h.here_or_inside ht.isPresent with ⟨-, f, υ, htour, -⟩ | ⟨n, υ, -, hn, hvisits, hfails⟩
  · refine .inl ?_
    have hprogram := ht
    cases ht with
    | @source gs fs hgs hfs =>
    replace htour : step visit (.source gs fs) (start {} none) = .error (.raised f) υ := htour
    rcases bind_eq_error.mp htour with h | ⟨gs', σ₁, hg, h⟩
    · exact (visitAll_ne_raised (fun g hg => (hgs g hg).isPresent) h).elim
    rcases bind_eq_error.mp h with h | ⟨fs', σ₂, hf, h⟩
    · exact (visitAll_ne_raised (fun f hf => (hfs f hf).isPresent) h).elim
    have hprepares : Prepares (.source gs fs) σ₂ :=
      ⟨_, visitAll_append_eq_ok.mpr ⟨gs', fs', σ₁, hg, hf, rfl⟩⟩
    refine ⟨⟨σ₂, hprepares⟩, (hprepares.lacksIntegerMain_iff hprogram).mpr fun ref main hfind hinteger => ?_⟩
    rw [bind_of_eq_ok (lookupFunction_eq_ok.mpr ⟨hfind, rfl⟩)] at h
    simp only [hinteger] at h
    cases h
  · exact .inr ⟨n, υ, hn, hvisits, hfails⟩

/-- The analysis of the program may come to the node in the state `υ`. Inside the program only trees are
visited that are smaller. -/
structure Reached (t : Node) (k : Nat) (n : Node) (υ : State Unit (Option Ty)) : Prop where
  depth : k = 0
  contains : t.Contains n
  smaller : n.height < t.height ∨ υ = start {} none

theorem Reached.visits {n m : Node} {k : Nat} {τ υ : State Unit (Option Ty)} (h : Reached t k n τ)
    (hvisits : walker.Visits k n τ m υ) : Reached t (k - 1) m υ := by
  obtain ⟨rfl, hn, -⟩ := h
  obtain ⟨hm, hlt⟩ := hvisits.reach
  exact ⟨rfl, hn.trans hm, .inl (Nat.lt_of_lt_of_le hlt (Node.height_le_of_contains hn))⟩

/-- **Whom an analysis blames.** It is a node of the program, and it is the program just if its main
function is missing or does not return integers. -/
theorem blames_of_analyze {e : Located Fault} (ht : t.IsProgram N) (h : t.analyze = .error (.fault e)) :
    ∃ m, walker.Blames 0 t (start {} none) e m ∧ m.isPresent = true ∧ t.Contains m ∧
      (m = t ↔ (∃ σ, Prepares t σ) ∧ t.LacksIntegerMain) := by
  have hfails : walker.Fails 0 t (start {} none) e := by
    unfold Node.analyze at h
    split at h
    · cases h
    next _ hvisit =>
      cases h
      exact ⟨_, hvisit⟩
  obtain ⟨m, hm, hblames⟩ := hfails.exists_blames ht.isPresent
  obtain ⟨k, τ, ⟨rfl, hcontains, hsmaller⟩, hraises⟩ := ((hblames.failsAt_iff m).mpr rfl).exists_raises
    ht.isPresent hfails (fun hvisits hn => Reached.visits hn hvisits) ⟨rfl, .self, .inr rfl⟩
  refine ⟨m, hblames, hm, hcontains, ?_, ?_⟩
  · rintro rfl
    obtain rfl := hsmaller.resolve_left (Nat.lt_irrefl _)
    refine (Prepares.or_inside ht hfails).resolve_right ?_
    rintro ⟨n, υ, hn, hvisits, hfailed⟩
    exact hraises.not_fails hn hvisits hfailed
  · rintro ⟨⟨σ, hprepares⟩, hmain⟩
    obtain ⟨f, hvisit⟩ := hprepares.visit_eq ht hmain
    obtain rfl := hfails.eq ⟨σ, hvisit⟩
    exact (Option.some.inj hblames.node).symm

end

end Analysis

end PlcLang
