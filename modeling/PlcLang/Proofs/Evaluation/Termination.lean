import PlcLang.Proofs.Evaluation.Depth
import PlcLang.Proofs.Evaluation.Flat
import PlcLang.Proofs.Evaluation.Operands
import PlcLang.Proofs.Evaluation.Resolution
import PlcLang.Proofs.Typing.Calls

/-!
# Runs that end

A program without loops, lists and functions that call themselves ends. A call leads to a function before
the one in which it stands, so what is left to do becomes less: the measure of a node is the number of the
functions that may be called from it and then its size.

* `Straight`: such programs.
* `Ready`: a node that a depth suffices for.
* `Run.straightRegime`: what every step keeps.
* `Node.run_terminates`: the result.
-/

namespace PlcLang

open Typing

namespace Node

/-! ## Programs -/

/-- The node is neither a loop nor a list. -/
def IsStraight : Node → Prop
  | whileLoop .. | listLiteral .. => False
  | _ => True

/-- The node is a call by the name with so many arguments. -/
def Calls (name : Name) (arity : Nat) : Node → Prop
  | call name' arguments _ _ _ => name' = name ∧ arguments.length = arity
  | _ => False

/-- If the node is a function, it has no call by its own name with as many arguments as it has
parameters. -/
def SparesItself : Node → Prop
  | function name parameters _ _ ss _ _ =>
    ∀ s ∈ ss, s.Everywhere fun n => ¬ n.Calls name parameters.length
  | _ => True

instance : DecidablePred IsStraight := fun n =>
  match n with
  | whileLoop .. | listLiteral .. => inferInstanceAs (Decidable False)
  | missing | bare _ | literal .. | group .. | binary .. | access .. | call .. | expressionStatement ..
  | declaration .. | assignment .. | conditional .. | case .. | switch .. | returning .. | global ..
  | function .. | source .. => inferInstanceAs (Decidable True)

instance (name : Name) (arity : Nat) : DecidablePred (Calls name arity) := fun n =>
  match n with
  | call name' arguments _ _ _ => inferInstanceAs (Decidable (name' = name ∧ arguments.length = arity))
  | missing | bare _ | literal .. | group .. | binary .. | access .. | listLiteral ..
  | expressionStatement .. | declaration .. | assignment .. | conditional .. | case .. | switch ..
  | whileLoop .. | returning .. | global .. | function .. | source .. => inferInstanceAs (Decidable False)

instance : DecidablePred SparesItself := fun n =>
  match n with
  | function name parameters _ _ ss _ _ =>
    inferInstanceAs (Decidable (∀ s ∈ ss, s.Everywhere fun n => ¬ n.Calls name parameters.length))
  | missing | bare _ | literal .. | group .. | binary .. | access .. | call .. | listLiteral ..
  | expressionStatement .. | declaration .. | assignment .. | conditional .. | case .. | switch ..
  | whileLoop .. | returning .. | global .. | source .. => inferInstanceAs (Decidable True)

end Node

variable {S : Store Unit} {gs fs : List Node} {d k : Nat} {n m c : Node}

/-- A program of which all calls lead to functions before the one in which they stand, without loops and
lists. -/
structure Straight (S : Store Unit) (gs fs : List Node) : Prop where
  /-- Globals call only `print`. -/
  globals : ∀ g ∈ gs, g.Everywhere (Node.CallsAmong S [])
  /-- Functions call `print` and functions before them. -/
  functions {k : Nat} {f : Node} : fs[k]? = some f → f.Everywhere (Node.CallsAmong S (fs.take k))
  /-- What the program consists of. -/
  mem {n : Node} : (Node.source gs fs).Contains n → n = .source gs fs ∨ n ∈ fs ∨ n.IsInner
  /-- The functions are functions, and they are not built in. -/
  function : ∀ m ∈ fs, m.isFunction = true ∧ ∀ ref f g, m.CreatesFunction ref f →
    S.functionAt? ref = some g → g.body = none
  /-- All functions stand at different places. -/
  places : (Node.source gs fs).binderPlaces.Nodup
  /-- The literals are literals of the language. -/
  literals : (Node.source gs fs).Everywhere Node.HasTypedLiteral
  /-- There are no loops and no lists. -/
  straight : (Node.source gs fs).Everywhere Node.IsStraight

namespace Straight

/-- If a function neither calls itself nor what comes after it, it only calls what comes before it. -/
theorem callsAmong_take {f : Node} (hf : fs[k]? = some f) (hspares : f.SparesItself)
    (hcalls : f.Everywhere (Node.CallsAmong S (fs.take (k + 1)))) (hfunction : f.isFunction = true) :
    f.Everywhere (Node.CallsAmong S (fs.take k)) := by
  cases f with
  | function name parameters types R ss b p =>
    refine Node.everywhere_iff.mpr ⟨trivial, fun s hs n hn => ?_⟩
    have hn' := hcalls n (Node.Contains.trans (.child .self hs) hn)
    have hnot := hspares s hs n hn
    cases n with
    | call =>
      obtain ⟨ref, g, hb, hat, hname, harity, hamong⟩ := hn'
      refine ⟨ref, g, hb, hat, hname, harity, hamong.imp_right fun ⟨m, hm, hcreates⟩ => ?_⟩
      rw [List.take_add_one, hf] at hm
      rcases List.mem_append.mp hm with hm | hm
      · exact ⟨m, hm, hcreates⟩
      · obtain rfl := List.mem_singleton.mp hm
        obtain ⟨-, hname', harity', -⟩ := hcreates
        exact absurd ⟨hname.symm.trans hname', harity.symm.trans harity'⟩ hnot
    | _ => trivial
  | _ => cases hfunction

theorem mem_binders (h : Straight S gs fs) (hm : m ∈ fs) : m ∈ (Node.source gs fs).binders := by
  refine Node.mem_binders.mpr ⟨.child .self (List.mem_append_right _ hm), ?_⟩
  have hfunction := (h.function m hm).1
  cases m with
  | function => rfl
  | _ => cases hfunction

/-- Functions that stand at one place are the same. -/
theorem eq_of_place (h : Straight S gs fs) (hm : m ∈ (Node.source gs fs).binders)
    (hn : n ∈ (Node.source gs fs).binders) (hplace : m.place = n.place) : m = n :=
  List.inj_on_of_nodup_map h.places hm hn hplace

end Straight

/-! ## Nodes that a depth suffices for -/

/-- The depth suffices for the node: `k` functions may be called from it, and for each of them there is
the size of the whole program. -/
def Ready (S : Store Unit) (gs fs : List Node) (d : Nat) (n : Node) : Prop :=
  (Node.source gs fs).Contains n ∧ ∃ k ≤ fs.length, n.Everywhere (Node.CallsAmong S (fs.take k)) ∧
    (n = .source gs fs → k = fs.length) ∧ k * (Node.source gs fs).height + n.height ≤ d

/-- A depth for a whole program: its size, and that once more for every function. -/
noncomputable def sufficient (gs fs : List Node) : Nat :=
  fs.length * (Node.source gs fs).height + (Node.source gs fs).height

namespace Ready

theorem child (h : Ready S gs fs (d + 1) n) (hc : c ∈ n.children) : Ready S gs fs d c := by
  obtain ⟨hn, k, hk, hcalls, -, hsize⟩ := h
  have hlt := Node.height_lt_of_mem_children hc
  refine ⟨.child hn hc, k, hk, (Node.everywhere_iff.mp hcalls).2 c hc, ?_, by omega⟩
  rintro rfl
  exact absurd (Node.height_lt_of_contains_child hn hc) (Nat.lt_irrefl _)

theorem mono {d' : Nat} (h : Ready S gs fs d n) (hd : d ≤ d') : Ready S gs fs d' n := by
  obtain ⟨hn, k, hk, hcalls, hwhole, hsize⟩ := h
  exact ⟨hn, k, hk, hcalls, hwhole, Nat.le_trans hsize hd⟩

/-- The statements of a function come before those of the functions behind it. -/
theorem of_mem_take (hS : Straight S gs fs) (hk : k ≤ fs.length) (hm : m ∈ fs.take k)
    (hd : k * (Node.source gs fs).height ≤ d) (hc : c ∈ m.children) : Ready S gs fs d c := by
  obtain ⟨j, hj, hat⟩ := List.mem_iff_getElem.mp hm
  rw [List.length_take] at hj
  have hjk : j < k := by omega
  have hat : fs[j]? = some m := by
    rw [← hat, List.getElem_take, List.getElem?_eq_getElem]
  have hm' : (Node.source gs fs).Contains m :=
    .child .self (List.mem_append_right _ (List.mem_of_mem_take hm))
  have hlt := Node.height_lt_of_contains_child hm' hc
  refine ⟨.child hm' hc, j, by omega, (Node.everywhere_iff.mp (hS.functions hat)).2 c hc, ?_, ?_⟩
  · rintro rfl
    exact absurd hlt (Nat.lt_irrefl _)
  · have hmul := Nat.mul_le_mul_right ((Node.source gs fs).height) (Nat.succ_le_of_lt hjk)
    rw [Nat.succ_mul] at hmul
    omega

/-- This depth suffices for the whole program. -/
theorem program (hS : Straight S gs fs) : Ready S gs fs (sufficient gs fs) (.source gs fs) := by
  refine ⟨.self, fs.length, Nat.le_refl _, ?_, fun _ => rfl, Nat.le_refl _⟩
  rw [List.take_length]
  refine Node.everywhere_iff.mpr ⟨trivial, List.forall_mem_append.mpr ⟨fun g hg n hn => ?_, fun f hf n hn => ?_⟩⟩
  · exact (hS.globals g hg n hn).mono (List.nil_subset _)
  · obtain ⟨k, hk⟩ := List.mem_iff_getElem?.mp hf
    exact (hS.functions hk n hn).mono (List.take_subset _ _)

end Ready

namespace Run

open Walk

/-! ## The regime -/

/-- There are no lists, the functions are those of the program, names mean what the analysis has found,
and the depth suffices. -/
def straightRegime (S : Store Unit) (gs fs : List Node) : Regime where
  fits _ := Value.IsFlat
  runs f := ∀ env names ss p, f.body = some (.code env names ss p) →
    f.origin = p ∧ ∃ name types R b, Node.function name names types R ss b p ∈ fs
  tame _ := True
  good := Ready S gs fs
  check _ n s := Node.Resolves S (.source gs fs) s n
  allows := Stop.IsFault

variable {s : State Body String} {ref : FunctionRef} {f : Function Body}

/-- **A call leads to a function before the one in which it stands**, so the depth suffices for what is
run. -/
theorem ready_of_call (hS : Straight S gs fs) {name : Name} {es : List Node} {t : Option Ty}
    {b : Option FunctionRef} {p : Place} (hn : Ready S gs fs (d + 1) (.call name es t b p))
    (hresolves : Node.Resolves S (.source gs fs) s (.call name es t b p))
    (hf : s.store.findFunction? s.env name es.length = some (ref, f))
    (hruns : (straightRegime S gs fs).runs f) : f.HasCode (Ready S gs fs d) := by
  intro env names ss q hbody c hc
  obtain ⟨-, k, hk, hcalls, -, hsize⟩ := hn
  obtain ⟨ref₁, f₁, hb₁, hat₁, -, -, hamong⟩ := hcalls _ .self
  obtain ⟨ref₂, f₂, found, g, hb₂, hat₂, hfound, hmade⟩ := hresolves
  obtain rfl : ref₁ = ref₂ := Option.some.inj (hb₁.symm.trans hb₂)
  obtain rfl : f₁ = f₂ := Option.some.inj (hat₁.symm.trans hat₂)
  obtain ⟨-, rfl⟩ := Prod.ext_iff.mp (Option.some.inj (hf.symm.trans hfound))
  obtain ⟨horigin, fname, types, R, b', hmem⟩ := hruns env names ss q hbody
  rcases hmade with ⟨-, hprint⟩ | ⟨m, hm, hcreates, -, -, hplace⟩
  · exact nomatch hprint.symm.trans hbody
  · -- the function that is run is the one that the call was resolved to
    obtain rfl : m = .function fname names types R ss b' q :=
      hS.eq_of_place hm (hS.mem_binders hmem) (hplace.symm.trans horigin)
    have htake : Node.function fname names types R ss b' q ∈ fs.take k := by
      rcases hamong with hbuiltin | ⟨m', hm', hcreates'⟩
      · have hnone := (hS.function _ hmem).2 _ _ _ hcreates hat₁
        rw [List.mem_singleton.mp hbuiltin] at hnone
        cases hnone
      · have hplace' := (createsFunction_origin hcreates').2.symm.trans (createsFunction_origin hcreates).2
        exact hS.eq_of_place (hS.mem_binders (List.mem_of_mem_take hm')) hm hplace' ▸ hm'
    refine .of_mem_take hS hk htake ?_ hc
    have hpos := (Node.call name es t b p).height_pos
    omega

/-- The main function is one of the functions. -/
theorem ready_of_main (hS : Straight S gs fs) {gs' fs' : List Node}
    (hn : Ready S gs fs (d + 1) (.source gs' fs')) (hruns : (straightRegime S gs fs).runs f) :
    f.HasCode (Ready S gs fs d) := by
  intro env names ss q hbody c hc
  obtain ⟨-, fname, types, R, b', hmem⟩ := hruns env names ss q hbody
  obtain ⟨hcontains, k, hk, -, hwhole, hsize⟩ := hn
  have hsource : Node.source gs' fs' = .source gs fs := by
    rcases hS.mem hcontains with heq | hmem | hinner
    · exact heq
    · cases (hS.function _ hmem).1
    · exact hinner.elim
  obtain rfl := hwhole hsource
  have hmem' := hmem
  rw [← List.take_length (l := fs)] at hmem'
  refine .of_mem_take hS (Nat.le_refl _) hmem' ?_ hc
  have hpos := (Node.source gs' fs').height_pos
  omega

theorem straightRegime_lawful (hS : Straight S gs fs) : (straightRegime S gs fs).Lawful where
  mono _ hv := hv
  lists _ _ := trivial
  fault hinteger := ⟨_, rfl, fun i hi => Word.InRange.fits (hinteger i hi)⟩
  attach n h := h.attach n
  nil _ := trivial
  boolean _ _ := trivial
  carryOn _ := trivial
  returned := Iff.rfl
  literal hn := by
    obtain ⟨τ, hτ⟩ := hS.literals _ hn.1
    obtain ⟨a, σ, rfl, -, -, ha⟩ := Ty.admits_of_literalType hτ
    exact ha
  requireBoolean _ hv := (answers_of_isFlat hv).requireBoolean_ends.mono fun _ _ _ => trivial
  requireInteger _ hv := (answers_of_isFlat hv).requireInteger_ends.mono fun _ _ _ => trivial
  operate _ hl hr := by
    refine ((operable_of_isFlat hl hr).operate_gives fun _ _ => Stop.isFault_raised rfl).mono fun v _ h => ?_
    obtain ⟨a, rfl, ha⟩ := h.2.exists_proper
    exact ha
  equal _ hl hr := .reading (fun _ _ => trivial) fun _ he => Store.isFault_of_equal hl hr he
  textOf _ hv := (answers_of_isFlat hv).textOf_ends.mono fun _ _ _ => trivial
  part hn hc := ⟨hn.child hc, fun m hm => (hn.child hc).mono (Nat.le_succ _) |>.child hm⟩
  case hn hm hnone := by
    rcases hS.mem hn.1 with heq | hmem | hinner
    · cases heq
    · cases (hS.function _ hmem).1
    · have hsome := hinner _ hm
      rw [hnone] at hsome
      cases hsome
  cutOff {n} hn := by
    obtain ⟨-, k, -, -, -, hsize⟩ := hn
    have hpos := n.height_pos
    omega
  loop hn := (hS.straight _ hn.1).elim
  newList hn _ _ := (hS.straight _ hn.1).elim
  setItem _ _ _ _ _ _ _ _ _ _ _ := trivial
  function hn := fun _ _ _ _ hbody => by
    cases hbody
    rcases hS.mem hn.1 with heq | hmem | hinner
    · cases heq
    · exact ⟨rfl, _, _, _, _, hmem⟩
    · exact hinner.elim
  call hn hresolves hf hruns := ready_of_call hS hn hresolves hf hruns
  main hn hruns := ready_of_main hS hn hruns

/-! ## Whole runs -/

/-- A run of the program in this depth comes to its end. -/
theorem endsWell_of_straight (hS : Straight S gs fs)
    (hresolves : ∀ depth, Passes (fun _ n s => Node.Resolves S (.source gs fs) s n) depth (.source gs fs)
      (start {} none)) :
    (straightRegime S gs fs).EndsWell
      (visit (sufficient gs fs) (.source gs fs) (start {} none)) := by
  have hstart : (straightRegime S gs fs).Holds (start {} none) := by
    refine .start (straightRegime_lawful hS).toStable (fun f hf => ?_) trivial
    exact fun env names ss p hbody => nomatch hf.symm.trans hbody
  exact (Regime.passes (straightRegime_lawful hS) (hresolves _) (.program hS) hstart).2

end Run

namespace Node

/-- **Calls are well-founded, and so programs without loops end.** In an accepted program the calls in a
function were resolved to `print`, to functions before it or to itself, and those in globals to `print`.
If there are no loops, no lists and no function with a call by its own name and number of parameters, the
run ends with a value or a fault that can be put into words, in all depths from some depth on. -/
theorem run_terminates {text : String} {t d : Node} (h : parse? text = some t)
    (hd : t.analyze = .ok d) :
    ∃ (σ : State Unit (Option Ty)) (gs fs : List Node),
      Analysis.visit t (Analysis.start {} none) = .ok d σ ∧ d = .source gs fs ∧
      (∀ g ∈ gs, g.Everywhere (CallsAmong σ.store [])) ∧
      (∀ (k : Nat) (f : Node), fs[k]? = some f → f.Everywhere (CallsAmong σ.store (fs.take (k + 1)))) ∧
      (d.Everywhere IsStraight → d.Everywhere SparesItself →
        ∃ depth, (∀ depth', depth ≤ depth' → d.run depth' = d.run depth) ∧
          ((∃ v s, d.run depth = .ok v s) ∨
            ∃ e s, d.run depth = .error (.fault e) s ∧ e.fault.IsWritable)) := by
  obtain ⟨σ, hσ, hwell⟩ := exists_visit_wellTyped h hd
  have hplaces := nodup_binderPlaces h hwell
  obtain ⟨gs, fs, rfl, hgs, hfs, hmem, hfunction⟩ := callsAmong_of_wellTyped hwell
  refine ⟨σ, gs, fs, hσ, rfl, hgs, hfs, fun hstraight hspares => ?_⟩
  have hS : Straight σ.store gs fs := by
    refine ⟨hgs, fun {k f} hk => ?_, hmem, hfunction, hplaces, typedLiterals_of_wellTyped hwell, hstraight⟩
    have hf := List.mem_of_getElem? hk
    have hcontains : (source gs fs).Contains f := .child .self (List.mem_append_right _ hf)
    exact Straight.callsAmong_take hk (hspares f hcontains) (hfs k f hk) (hfunction f hf).1
  have hends := Run.endsWell_of_straight hS (passes_resolves hwell)
  refine ⟨sufficient gs fs, fun depth' hdepth => ?_, ?_⟩
  · refine (Run.cutOff_or_eq hdepth _ _).resolve_left fun ⟨s, hs⟩ => ?_
    rw [hs] at hends
    obtain ⟨⟨e, he, -⟩, -⟩ := hends
    cases he
  · unfold run
    cases hresult : Run.visit (sufficient gs fs) (source gs fs) (Run.start {} none) with
    | ok v s => exact .inl ⟨v, s, rfl⟩
    | error e s =>
      rw [hresult] at hends
      obtain ⟨⟨e', rfl, hwritable⟩, -⟩ := hends
      exact .inr ⟨e', s, rfl, hwritable⟩

/-- A program with two functions of one name, one of which calls the other. -/
def composing : String :=
  "VAR x: Any = print(3); FUN f(): Integer DO RETURN 7; END " ++
  "FUN f(n: Integer): Integer DO IF n > 1 DO RETURN n * 2; END RETURN f(); END " ++
  "FUN main(): Integer DO print(x); RETURN f(f(2)); END"

theorem run_terminates_composing :
    ∃ t d, parse? composing = some t ∧ t.analyze = .ok d ∧ d.Everywhere IsStraight ∧
      d.Everywhere SparesItself ∧ ∃ depth, (∀ depth', depth ≤ depth' → d.run depth' = d.run depth) ∧
        ((∃ v s, d.run depth = .ok v s) ∨
          ∃ e s, d.run depth = .error (.fault e) s ∧ e.fault.IsWritable) := by
  obtain ⟨t, d, ht, hd, hd'⟩ := exists_of_accepted? composing
    (fun d => decide (d.Everywhere IsStraight ∧ d.Everywhere SparesItself)) (by decide +kernel)
  obtain ⟨hstraight, hspares⟩ := of_decide_eq_true hd'
  obtain ⟨-, -, -, -, -, -, -, hends⟩ := run_terminates ht hd
  exact ⟨t, d, ht, hd, hstraight, hspares, hends hstraight hspares⟩

end Node

end PlcLang
