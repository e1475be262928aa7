import PlcLang.Proofs.Evaluation.Bounded
import PlcLang.Proofs.Evaluation.Operable
import PlcLang.Proofs.Typing.Decision
import PlcLang.Proofs.Typing.Derived

/-!
# Runs within bounds

In every run of an accepted program all numbers stay within bounds: those that variables and lists
hold, those that expressions give and calls hand over, and those that are printed. This is true
of runs that fail as well.

* `Run.boundsRegime`: what every step keeps.
* `Run.Bounded`: what is within bounds when a node is evaluated.
* `Node.isWritable_of_run`: no integer is too long to be written.
* `Node.run_bounded`: the result.
-/

namespace PlcLang

open Typing

namespace Node

/-- The value of the node is within bounds if it is a literal. -/
def HasBoundedLiteral : Node → Prop
  | literal value _ _ => value.IsBounded
  | _ => True

/-- All literals in the node are within bounds. -/
abbrev IsBounded (n : Node) : Prop := n.Everywhere HasBoundedLiteral

theorem IsBounded.child {n c : Node} (h : n.IsBounded) (hc : c ∈ n.children) : c.IsBounded :=
  (everywhere_iff.mp h).2 c hc

/-- The analysis has checked all literals. -/
theorem isBounded_of_wellTyped {S : Store Unit} {t d : Node} (h : t.WellTyped S d) : d.IsBounded := by
  intro n hn
  have hliteral := typedLiterals_of_wellTyped h n hn
  cases n with
  | literal =>
    obtain ⟨τ, hτ⟩ := hliteral
    exact (Ty.admits_of_literalType hτ).isBounded
  | _ => trivial

end Node

namespace Run

open Walk

/-! ## Operations -/

section

variable {s : State Body String} {l r v : Value} {e : Stop}

theorem isWritable_of_text (hs : ∀ id, ∀ v ∈ s.store.list id, v.IsBounded) (hv : v.IsBounded)
    (he : s.store.text v = .error e) : e.IsWritable :=
  Store.of_text he (fun _ => trivial) fun h => absurd h (Store.not_isOverlong_of_isBounded hs hv)

theorem isWritable_of_typeOf (hs : ∀ id, ∀ v ∈ s.store.list id, v.IsBounded) (hv : v.IsBounded)
    (he : s.store.typeOf v = .error e) : e.IsWritable :=
  Store.of_typeOf he (fun _ => trivial) (fun h => absurd h (Store.not_isOverlong_of_isBounded hs hv))
    fun _ => Fault.isWritable_of_eq_none rfl

theorem answers_of_isBounded (hs : ∀ id, ∀ v ∈ s.store.list id, v.IsBounded) (hv : v.IsBounded) :
    Answers Stop.IsWritable s v where
  raised _ hinteger := fun i hi => by
    obtain rfl := hinteger i hi
    exact Word.InRange.fits hv
  typeOf := isWritable_of_typeOf hs hv
  text := isWritable_of_text hs hv

/-- Operations on numbers within bounds only stop with what can be put into words. -/
theorem operable_of_isBounded (hs : ∀ id, ∀ v ∈ s.store.list id, v.IsBounded) (hl : l.IsBounded)
    (hr : r.IsBounded) : Operable Stop.IsWritable s l r where
  left := answers_of_isBounded hs hl
  right := answers_of_isBounded hs hr
  equal := Store.of_equalWithin trivial (fun _ _ => isWritable_of_typeOf hs) hs hl hr
  unordered _ _ _ := trivial

end

/-! ## The regime -/

/-- All numbers are within bounds, and functions have no other literals in their code. Whatever stops a run
can be put into words. -/
def boundsRegime : Regime where
  fits _ := Value.IsBounded
  runs := Function.HasCode Node.IsBounded
  tame _ := True
  good _ := Node.IsBounded
  check _ _ _ := True
  allows := Stop.IsWritable

theorem boundsRegime_holds_iff {s : State Body String} :
    boundsRegime.Holds s ↔ s.Carries Node.IsBounded :=
  ⟨fun h => ⟨⟨h.held, h.items⟩, h.functions⟩,
    fun h => ⟨h.isBounded.held, h.isBounded.items, h.functions, trivial⟩⟩

theorem boundsRegime_lawful : boundsRegime.Lawful where
  mono _ hv := hv
  lists _ _ := trivial
  fault hinteger := fun i hi => Word.InRange.fits (hinteger i hi)
  attach n h := h.attach n
  nil _ := trivial
  boolean _ _ := trivial
  carryOn _ := trivial
  returned := Iff.rfl
  literal hn := hn _ .self
  requireBoolean hs hv := (answers_of_isBounded hs.items hv).requireBoolean_ends.mono fun _ _ _ => trivial
  requireInteger hs hv := (answers_of_isBounded hs.items hv).requireInteger_ends.mono fun _ _ _ => trivial
  operate hs hl hr := ((operable_of_isBounded hs.items hl hr).operate_gives
    fun _ _ => Fault.isWritable_of_eq_none rfl).mono fun v _ h => by
      obtain ⟨a, rfl, ha⟩ := h.2.exists_proper
      exact ha
  equal hs hl hr := .reading (fun _ _ => trivial) fun _ he => (operable_of_isBounded hs.items hl hr).equal he
  textOf hs hv := (answers_of_isBounded hs.items hv).textOf_ends.mono fun _ _ _ => trivial
  part hn hc := ⟨hn.child hc, fun m hm => (hn.child hc).child hm⟩
  case _ _ _ := trivial
  cutOff _ := trivial
  loop _ := trivial
  newList _ _ _ := ⟨trivial, trivial⟩
  setItem _ _ _ _ _ _ _ _ _ _ _ := trivial
  function hn := fun _ _ _ _ hbody => by
    cases hbody
    exact (Node.everywhere_iff.mp hn).2
  call _ _ _ hf := hf
  main _ hf := hf

/-! ## Whole runs -/

/-- The call evaluates its arguments to the values and is then in the second state. -/
inductive Hands : (depth : Nat) → Node → State Body String → List Value → State Body String → Prop
  | call {depth name arguments t b p s vs s'} : values (visit depth) arguments s = .ok vs s' →
      Hands (depth + 1) (.call name arguments t b p) s vs s'

/-- The node is a call, and what is visible by its name is `print`. -/
def CallsPrint (s : State Body String) : Node → Prop
  | .call name arguments _ _ _ => ∃ ref f,
      s.store.findFunction? s.env name arguments.length = some (ref, f) ∧ f.body = some .print
  | _ => False

/-- All numbers are within bounds when the node is evaluated. -/
structure Bounded (depth : Nat) (n : Node) (s : State Body String) : Prop where
  /-- Those that are held before. -/
  before : s.IsBounded
  /-- Those that are held afterwards, whether the evaluation fails or not, and those that it gives. -/
  after : EndedIn State.IsBounded Value.IsBounded (visit depth n s)
  /-- Those that a call hands over, in lists as well. -/
  handed {vs : List Value} {s' : State Body String} : Hands depth n s vs s' → s'.IsBounded ∧
    ∀ v ∈ vs, v.IsBounded ∧ ∀ a, s'.store.datum? v = some a → a.IsBounded
  /-- Those that are printed: this is the text of what was handed over. -/
  printed {v : Value} {s'' : State Body String} : CallsPrint s n → visit depth n s = .ok v s'' →
    ∃ vs s' a text, Hands depth n s vs s' ∧ s'.store.datum? (vs.headD .nil) = some a ∧ a.IsBounded ∧
      a.text? = some text ∧ s''.register = s'.register ++ text ++ "\n"

/-- A run starts without values and without code. -/
theorem start_carries : (start {} none).Carries Node.IsBounded := by
  refine boundsRegime_holds_iff.mp (Regime.Holds.start boundsRegime_lawful.toStable (fun f hf => ?_) trivial)
  exact fun env names ss p hbody => nomatch hf.symm.trans hbody

/-- **Evaluations leave all numbers within bounds.** -/
theorem visit_upheld (otherwise : Nat → Node → Run Value) (depth : Nat) (n : Node) (hn : n.IsBounded)
    (s : State Body String) (hs : s.Carries Node.IsBounded) :
    guarded (fun depth n s => n.IsBounded ∧ s.Carries Node.IsBounded ∧
      EndedIn (State.Carries Node.IsBounded) Value.IsBounded (visit depth n s)) otherwise depth n s =
      visit depth n s ∧ EndedIn (State.Carries Node.IsBounded) Value.IsBounded (visit depth n s) := by
  have hended {result : EStateM.Result Stop (State Body String) Value}
      (h : boundsRegime.EndsWell result) :
      EndedIn (State.Carries Node.IsBounded) Value.IsBounded result := by
    cases result with
    | ok v t => exact ⟨h.1, boundsRegime_holds_iff.mp h.2⟩
    | error e t => exact boundsRegime_holds_iff.mp h.2
  have hpasses : Passes boundsRegime.check depth n s := passes_of_forall (fun _ _ _ => trivial) _ _ _
  obtain ⟨hsettled, hends⟩ := Regime.passes boundsRegime_lawful hpasses hn (boundsRegime_holds_iff.mpr hs)
  exact ⟨hsettled.mono (fun _ _ _ h => ⟨h.1, boundsRegime_holds_iff.mp h.2.1, hended h.2.2⟩) otherwise,
    hended hends⟩

/-- What a call hands over is within bounds. -/
theorem Hands.isBounded {depth : Nat} {n : Node} {s s' : State Body String} {vs : List Value}
    (h : Hands depth n s vs s') (hn : n.IsBounded) (hs : s.Carries Node.IsBounded) :
    s'.IsBounded ∧ ∀ v ∈ vs, v.IsBounded ∧ ∀ a, s'.store.datum? v = some a → a.IsBounded := by
  cases h with
  | @call depth _ arguments _ _ _ _ _ _ hvs =>
    have harguments : ∀ a ∈ arguments, a.IsBounded := (Node.everywhere_iff.mp hn).2
    have hvalues := (upheld_visit boundsRegime_lawful (fun _ _ _ => trivial) depth).values
      boundsRegime_lawful (boundsRegime_holds_iff.mpr hs) harguments
    obtain ⟨hbounded, hs'⟩ := hvalues.of_eq_ok hvs
    have hs' := boundsRegime_holds_iff.mp hs'
    refine ⟨hs'.isBounded, fun v hv => ⟨hbounded v hv, fun a ha => ?_⟩⟩
    exact Store.isBounded_of_datum? hs'.isBounded.items (hbounded v hv) ha

theorem datum?_of_text {s : Store Body} {v : Value} {text : String} (h : s.text v = .ok text) :
    ∃ a, s.datum? v = some a ∧ a.text? = some text := by
  unfold Store.text Store.datum at h
  cases ha : s.datum? v with
  | none =>
    rw [ha] at h
    cases h
  | some a =>
    rw [ha] at h
    refine ⟨a, rfl, ?_⟩
    change Store.written a.text? = .ok text at h
    cases htext : a.text? <;> rw [htext] at h <;> cases h
    rfl

/-- A call of `print` that succeeds writes the text of its argument. -/
theorem hands_of_callsPrint {depth : Nat} {n : Node} {s s'' : State Body String} {v : Value}
    (h : CallsPrint s n) (hv : visit depth n s = .ok v s'') :
    ∃ vs s' a text, Hands depth n s vs s' ∧ s'.store.datum? (vs.headD .nil) = some a ∧
      a.text? = some text ∧ s''.register = s'.register ++ text ++ "\n" := by
  cases depth with
  | zero => cases hv
  | succ depth =>
    cases n with
    | call name arguments t b p =>
      obtain ⟨ref, f, hf, hbody⟩ := h
      have hv : callWith (visit depth) name arguments s = .ok v s'' := attached_eq_ok.mp hv
      simp only [callWith, invoke, bind_eq_ok, lookupFunction_eq_ok, lift_eq_ok] at hv
      obtain ⟨_, _, ⟨hf', rfl⟩, vs, s', hvs, body, _, ⟨hbody', rfl⟩, hv⟩ := hv
      obtain rfl := Option.some.inj (hf.symm.trans hf')
      obtain rfl := Option.some.inj (hbody.symm.trans (body_of_bodyFor hbody'))
      simp only [bind_eq_ok, pure_eq_ok] at hv
      obtain ⟨text, _, hread, _, _, hprint, rfl, rfl⟩ := hv
      obtain ⟨htext, rfl⟩ := reading_eq_ok.mp hread
      cases hprint
      obtain ⟨a, ha, htext⟩ := datum?_of_text htext
      exact ⟨vs, s', a, text, .call hvs, ha, htext, rfl⟩
    | _ => cases h

end Run

namespace Node

/-- **No integer is too long to be written.** Whatever stops a run of an accepted program can be put into
words. -/
theorem isWritable_of_run {text : String} {t d : Node} (h : parse? text = some t) (hd : t.analyze = .ok d)
    {depth : Nat} {e : Stop} {s : State Body String} (he : d.run depth = .error e s) : e.IsWritable := by
  obtain ⟨σ, -, hwell⟩ := exists_visit_wellTyped h hd
  have hends := (Run.Regime.passes Run.boundsRegime_lawful (Run.passes_of_forall (fun _ _ _ => trivial) depth d _)
    (isBounded_of_wellTyped hwell) (Run.boundsRegime_holds_iff.mpr Run.start_carries)).2
  change Run.visit depth d (Run.start {} none) = .error e s at he
  rw [he] at hends
  exact hends.1

/-- **All numbers stay within bounds.** Whenever a node is evaluated in a run of an accepted program,
all numbers that are held, given, handed over or printed are within bounds, and they are when the run
has ended, whether it has failed or not. -/
theorem run_bounded {text : String} {t d : Node} (h : parse? text = some t)
    (hd : t.analyze = .ok d) (depth : Nat) :
    Run.Passes Run.Bounded depth d (Run.start {} none) ∧
      EndedIn State.IsBounded Value.IsBounded (d.run depth) := by
  obtain ⟨σ, -, hwell⟩ := exists_visit_wellTyped h hd
  have hn := isBounded_of_wellTyped hwell
  have hrun (otherwise : Nat → Node → Run Value) :=
    Run.visit_upheld otherwise depth d hn _ Run.start_carries
  refine ⟨Run.Passes.mono (fun otherwise => (hrun otherwise).1) ?_, ?_⟩
  · rintro depth n s ⟨hn, hs, hended⟩
    refine ⟨hs.isBounded, hended.imp (fun _ hs => hs.isBounded) fun _ hv => hv,
      fun hvs => hvs.isBounded hn hs, fun hprint hv => ?_⟩
    obtain ⟨vs, s', a, text, hvs, ha, hregister⟩ := Run.hands_of_callsPrint hprint hv
    obtain ⟨hs', hbounded⟩ := hvs.isBounded hn hs
    refine ⟨vs, s', a, text, hvs, ha, Store.isBounded_of_datum? hs'.items ?_ ha, hregister⟩
    cases vs with
    | nil => trivial
    | cons v vs => exact (hbounded v List.mem_cons_self).1
  · exact (hrun fun _ _ => pure .nil).2.imp (fun _ hs => hs.isBounded) fun _ hv => hv

/-- A program with a list in a list, a variable without a value, a function that does not return, a
product and a sum that are too large, and an index that is as well. -/
def overflowing : String :=
  "LIST xs: Integer = [1, 2]; LIST ys: Any = [xs, 3]; VAR u: Integer; " ++
  "FUN f(n: Integer): Integer DO xs[0] = n * 2; END " ++
  "FUN main(): Integer DO f(2147483647); print(ys); print(2147483647 + 1); xs[5] = u; RETURN 0; END"

theorem run_bounded_overflowing :
    ∃ t d, parse? overflowing = some t ∧ t.analyze = .ok d ∧ ∀ depth,
      Run.Passes Run.Bounded depth d (Run.start {} none) ∧
        EndedIn State.IsBounded Value.IsBounded (d.run depth) := by
  obtain ⟨t, d, ht, hd, -⟩ := exists_of_accepted? overflowing (fun _ => true) (by decide +kernel)
  exact ⟨t, d, ht, hd, run_bounded ht hd⟩

end Node

end PlcLang
