import PlcLang.Proofs.Evaluation.Bounded
import PlcLang.Proofs.Evaluation.Items
import PlcLang.Proofs.Evaluation.Operable
import PlcLang.Proofs.Evaluation.Settled
import PlcLang.Proofs.Typing.Decision
import PlcLang.Proofs.Typing.Derived

/-!
# Runs without lists that contain themselves

A variable of a list has the type of the items, so an accepted program may store a list in itself. This
is the only way to a list that contains itself: an assignment to an item of a list from which the list
can be reached. Where no such assignment is made, all values have texts and can be compared.

* `Run.Replaces`, `Run.Harmless`: assignments to items of lists.
* `State.IsAcyclic`: what is true of the values of a state.
* `Node.run_keeps_acyclic`: the result; `Node.not_forall_acyclic`: a program that stores a list in
  itself.
* `Run.passes_harmless`: programs that only store what operations give.
-/

namespace PlcLang

open Relation Typing

/-- No list contains itself, and so all values that may occur have texts and can be compared. -/
structure State.IsAcyclic (s : State Body String) : Prop where
  acyclic : s.store.IsAcyclic
  /-- The values of the variables of all scopes may occur: they refer to lists of the store, and their
  numbers are within bounds. -/
  held (id : ScopeId) : ∀ v ∈ (s.store.scope id).variables, s.store.Knows v.value ∧ v.value.IsBounded
  /-- So may the items of all lists. -/
  items (id : ListId) : ∀ v ∈ s.store.list id, s.store.Knows v ∧ v.IsBounded
  text {v : Value} : s.store.Knows v → v.IsBounded → ∃ text, s.store.text v = .ok text
  equal {v w : Value} : s.store.Knows v → s.store.Knows w → s.store.equal v w ≠ .error .unfinished

namespace Run

open Walk

/-! ## Assignments to items -/

/-- The node assigns to an item of a list: its parts are evaluated, and in the state in which this ends
an item of the list is to be replaced by the value. -/
inductive Replaces : (depth : Nat) → Node → State Body String → ListId → (index : Nat) → Value →
    State Body String → Prop
  | assignment {depth name offset value t b p q s ref u id i s₁ v s₂} :
      s.store.findVariable? s.env name = some (ref, u) → u.isMutable = true →
      offset.isPresent = true → u.value = .list id → visit depth offset s = .ok (.integer i) s₁ →
      visit depth value s₁ = .ok v s₂ → 0 ≤ i → i < (s₂.store.list id).size →
      Replaces (depth + 1) (.assignment (.access name offset t b p) value q) s id i.toNat v s₂

/-- No list is stored in itself or in a list in it. -/
def Harmless (depth : Nat) (n : Node) (s : State Body String) : Prop :=
  ∀ id index v s', Replaces depth n s id index v s' → ¬ s'.store.Reaches v id

variable {depth index : Nat} {n : Node} {s s' : State Body String} {id : ListId} {v : Value}

/-- Such an assignment does replace the item. -/
theorem Replaces.visit_eq (h : Replaces depth n s id index v s') :
    index < (s'.store.list id).size ∧
      visit depth n s = .ok .carryOn { s' with store := s'.store.setItem id index v } := by
  cases h with
  | assignment hfind hmutable hpresent hlist hoffset hvalue hle hlt =>
    refine ⟨by omega, visit_assignItem_of_lt hpresent ⟨_, _, hfind, hmutable, hlist⟩ ?_ hle hlt⟩
    exact operands_eq_ok.mpr ⟨_, hoffset, hvalue⟩

/-- **A list that is stored in itself**, or in a list in it, contains itself from then on. -/
theorem Replaces.holds_self (h : Replaces depth n s id index v s') (hv : s'.store.Reaches v id) :
    ∃ s'', visit depth n s = .ok .carryOn s'' ∧ TransGen s''.store.Holds id id :=
  ⟨_, h.visit_eq.2, Store.holds_self_of_reaches hv h.visit_eq.1⟩

/-! ## The regime -/

/-- Lists do not contain themselves, and no assignment makes one contain itself. -/
def acyclicRegime : Regime where
  fits k v := (∀ i ∈ v.list?, i < k) ∧ v.IsBounded
  runs := Function.HasCode (·.Everywhere Node.HasTypedLiteral)
  tame := Store.IsAcyclic
  good _ n := n.Everywhere Node.HasTypedLiteral
  check := Harmless
  allows _ := True

theorem isClosed_of_items (h : ∀ id, ∀ v ∈ s.store.list id, s.store.Knows v) : s.store.IsClosed := by
  intro items hitems v hv
  obtain ⟨id, hid, rfl⟩ := List.mem_iff_getElem.mp hitems
  refine h id v ?_
  rw [Store.list, Array.getD_eq_getD_getElem?, Array.getElem?_eq_getElem (by simpa using hid)]
  simpa using hv

theorem isClosed_of_holds (h : acyclicRegime.Holds s) : s.store.IsClosed :=
  isClosed_of_items fun id v hv => (h.items id v hv).1

theorem isAcyclic_of_holds (h : acyclicRegime.Holds s) : s.IsAcyclic := by
  have hclosed := isClosed_of_holds h
  refine ⟨h.tame, h.held, h.items, fun hv hbounded => ?_, Store.equal_ne_unfinished h.tame hclosed⟩
  exact Store.exists_text_of_isBounded (fun id v hv => (h.items id v hv).2) hbounded
    (Store.datum?_ne_none h.tame hclosed hv)

theorem isAcyclic_of_lists_eq {s t : Store Body} (h : s.lists = t.lists) (hs : s.IsAcyclic) :
    t.IsAcyclic := by
  have hholds : t.Holds = s.Holds := by
    unfold Store.Holds Store.list
    rw [h]
  unfold Store.IsAcyclic
  rw [hholds]
  exact hs

theorem acyclicRegime_lawful : acyclicRegime.Lawful where
  mono hle hv := ⟨fun i hi => Nat.lt_of_lt_of_le (hv.1 i hi) hle, hv.2⟩
  lists := isAcyclic_of_lists_eq
  fault _ := trivial
  attach _ _ := trivial
  nil _ := ⟨nofun, trivial⟩
  boolean _ _ := ⟨nofun, trivial⟩
  carryOn _ := ⟨nofun, trivial⟩
  returned := Iff.rfl
  literal hn := by
    obtain ⟨τ, hτ⟩ := hn _ .self
    have hbounded := (Ty.admits_of_literalType hτ).isBounded
    obtain ⟨a, rfl⟩ := hτ.exists_scalar
    exact ⟨nofun, hbounded⟩
  requireBoolean _ _ := .of_forall (fun _ => trivial) fun _ _ => trivial
  requireInteger _ _ := .of_forall (fun _ => trivial) fun _ _ => trivial
  operate {s op l r} _ _ _ := ((operable_of_forall (fun _ => trivial) s l r).operate_gives
    fun _ _ => trivial).mono fun v _ h => by
      obtain ⟨a, rfl, ha⟩ := h.2.exists_proper
      exact ⟨nofun, ha⟩
  equal _ _ _ := .of_forall (fun _ => trivial) fun _ _ => trivial
  textOf _ _ := .of_forall (fun _ => trivial) fun _ _ => trivial
  part hn hc :=
    have hchildren := (Node.everywhere_iff.mp hn).2 _ hc
    ⟨hchildren, (Node.everywhere_iff.mp hchildren).2⟩
  case _ _ _ := trivial
  cutOff _ := trivial
  loop _ := trivial
  newList _ hs hvs := by
    refine ⟨⟨fun i hi => ?_, trivial⟩, Store.isAcyclic_newList hs.tame (isClosed_of_holds hs) fun v hv => ?_⟩
    · cases hi
      exact Nat.lt_succ_self _
    · exact (hvs v (List.mem_toArray.mp hv)).1
  setItem hcheck hu hmutable hpresent hid hi hv hs _ hle hlt :=
    Store.isAcyclic_setItem hs.tame
      (hcheck _ _ _ _ (.assignment hu hmutable hpresent hid hi hv hle hlt))
  function hn := fun _ _ _ _ hbody => by
    cases hbody
    exact (Node.everywhere_iff.mp hn).2
  call _ _ _ hf := hf
  main _ hf := hf

/-! ## Whole runs -/

/-- In the end no list contains itself, and the value that was given can be written and compared. -/
def EndsAcyclic : EStateM.Result Stop (State Body String) Value → Prop
  | .ok v s => s.IsAcyclic ∧ s.store.Knows v ∧ v.IsBounded
  | .error _ s => s.IsAcyclic

theorem endsAcyclic_of_endsWell {result : EStateM.Result Stop (State Body String) Value}
    (h : acyclicRegime.EndsWell result) : EndsAcyclic result := by
  cases result with
  | ok v s => exact ⟨isAcyclic_of_holds h.2, h.1⟩
  | error e s => exact isAcyclic_of_holds h.2

/-- A run starts without lists. -/
theorem holds_start : acyclicRegime.Holds (start {} none) := by
  refine Regime.Holds.start acyclicRegime_lawful.toStable (fun f hf => ?_) fun i hi => ?_
  · exact fun env names ss p hbody => nomatch hf.symm.trans hbody
  · obtain ⟨j, ⟨v, hv, -⟩, -⟩ := TransGen.head'_iff.mp hi
    cases hv

end Run

/-! ## Programs that only store what operations give -/

/-- The node is a literal or an operation, perhaps in parentheses. -/
def Node.IsComputed : Node → Prop
  | literal .. | binary .. => True
  | group e _ _ => e.isBinary = true
  | _ => False

/-- If the node assigns to an item of a list, what it stores is computed. -/
def Node.StoresComputed : Node → Prop
  | assignment (access _ offset _ _ _) value _ => offset.isPresent = true → value.IsComputed
  | _ => True

namespace Node

instance : DecidablePred IsComputed := fun n =>
  match n with
  | literal .. | binary .. => inferInstanceAs (Decidable True)
  | group e _ _ => inferInstanceAs (Decidable (e.isBinary = true))
  | missing | bare _ | access .. | call .. | listLiteral .. | expressionStatement .. | declaration ..
  | assignment .. | conditional .. | case .. | switch .. | whileLoop .. | returning .. | global ..
  | function .. | source .. => inferInstanceAs (Decidable False)

instance : DecidablePred StoresComputed := fun n =>
  match n with
  | assignment (access _ offset _ _ _) value _ =>
    inferInstanceAs (Decidable (offset.isPresent = true → value.IsComputed))
  | assignment .missing _ _ | assignment (.bare _) _ _ | assignment (.literal ..) _ _
  | assignment (.group ..) _ _ | assignment (.binary ..) _ _ | assignment (.call ..) _ _
  | assignment (.listLiteral ..) _ _ | assignment (.expressionStatement ..) _ _
  | assignment (.declaration ..) _ _ | assignment (.assignment ..) _ _
  | assignment (.conditional ..) _ _ | assignment (.case ..) _ _ | assignment (.switch ..) _ _
  | assignment (.whileLoop ..) _ _ | assignment (.returning ..) _ _ | assignment (.global ..) _ _
  | assignment (.function ..) _ _ | assignment (.source ..) _ _
  | missing | bare _ | literal .. | group .. | binary .. | access .. | call .. | listLiteral ..
  | expressionStatement .. | declaration .. | conditional .. | case .. | switch .. | whileLoop ..
  | returning .. | global .. | function .. | source .. => inferInstanceAs (Decidable True)

end Node

namespace Run

open Walk

variable {depth : Nat} {n : Node} {s s' : State Body String} {v : Value}

/-- An operation gives a scalar. -/
theorem exists_scalar_of_operation {V : Node → Run Value} {op : Operator} {left right : Node}
    (h : operation V op left right s = .ok v s') : ∃ a, v = .scalar a := by
  have hboolean {t : State Body String} {b : Bool} (h : (pure (.boolean b) : Run Value) t = .ok v s') :
      ∃ a, v = .scalar a := ⟨_, (pure_eq_ok.mp h).1.symm⟩
  obtain ⟨l, t, -, h⟩ := bind_eq_ok.mp h
  split at h
  · obtain ⟨b, u, -, h⟩ := bind_eq_ok.mp h
    split at h
    · obtain ⟨r, _, -, h⟩ := bind_eq_ok.mp h
      obtain ⟨_, _, -, h⟩ := bind_eq_ok.mp h
      exact hboolean h
    · exact hboolean h
  · obtain ⟨b, u, -, h⟩ := bind_eq_ok.mp h
    split at h
    · exact hboolean h
    · obtain ⟨r, _, -, h⟩ := bind_eq_ok.mp h
      obtain ⟨_, _, -, h⟩ := bind_eq_ok.mp h
      exact hboolean h
  · obtain ⟨r, u, -, h⟩ := bind_eq_ok.mp h
    have hoperable : Operable (fun _ => True) u l r := operable_of_forall (fun _ => trivial) u l r
    obtain ⟨a, ha, -⟩ := ((hoperable.operate_gives fun _ _ => trivial).of_eq_ok h).2.exists_proper
    exact ⟨a, ha⟩

/-- What is computed is a scalar. -/
theorem exists_scalar_of_isComputed (hn : n.IsComputed) (hliteral : n.HasTypedLiteral)
    (h : visit depth n s = .ok v s') : ∃ a, v = .scalar a := by
  cases depth with
  | zero => cases h
  | succ depth =>
    have h := attached_eq_ok.mp h
    cases n with
    | literal =>
      obtain ⟨rfl, -⟩ := pure_eq_ok.mp h
      obtain ⟨τ, hτ⟩ := hliteral
      exact hτ.exists_scalar
    | binary => exact exists_scalar_of_operation h
    | group e =>
      cases depth with
      | zero => cases h
      | succ depth =>
        have h := attached_eq_ok.mp h
        cases e with
        | binary => exact exists_scalar_of_operation h
        | _ => cases hn
    | _ => cases hn

/-- **Programs that only store what operations give** never store a list in a list. -/
theorem passes_harmless (hn : n.Everywhere fun m => m.HasTypedLiteral ∧ m.StoresComputed) :
    Passes Harmless depth n (start {} none) := by
  refine (passes_everywhere hn).mono fun depth n s hn id index v s' h hv => ?_
  cases h with
  | @assignment depth name offset value t b p q _ _ _ _ _ _ _ _ _ _ hpresent _ _ hvalue _ _ =>
    have hcomputed := (hn _ .self).2 hpresent
    have hliteral := (hn value (.child .self (List.mem_cons_of_mem _ List.mem_cons_self))).1
    obtain ⟨a, rfl⟩ := exists_scalar_of_isComputed hcomputed hliteral hvalue
    obtain ⟨j, hj, -⟩ := hv
    cases hj

end Run

namespace Node

/-- **A list contains itself only if it is stored in itself.** In the runs of an accepted program in
which no list is stored in itself or in a list in it, no list ever contains itself, whether they fail or
not, and so all values that occur have texts and can be compared. These are all runs if what is stored
in lists is computed. A list that is stored in itself or in a list in it contains itself. -/
theorem run_keeps_acyclic {text : String} {t d : Node} (h : parse? text = some t)
    (hd : t.analyze = .ok d) :
    (∀ depth, Run.Passes Run.Harmless depth d (Run.start {} none) →
      Run.Passes (fun depth n s => s.IsAcyclic ∧ Run.EndsAcyclic (Run.visit depth n s)) depth d
        (Run.start {} none) ∧ Run.EndsAcyclic (d.run depth)) ∧
    (d.Everywhere StoresComputed → ∀ depth, Run.Passes Run.Harmless depth d (Run.start {} none)) ∧
    ∀ depth n s id index v s', Run.Replaces depth n s id index v s' → s'.store.Reaches v id →
      ∃ s'', Run.visit depth n s = .ok .carryOn s'' ∧ TransGen s''.store.Holds id id := by
  obtain ⟨σ, -, hwell⟩ := exists_visit_wellTyped h hd
  have hn := typedLiterals_of_wellTyped hwell
  refine ⟨fun depth hharmless => ?_, fun hstores depth => ?_, fun _ _ _ _ _ _ _ h hv => h.holds_self hv⟩
  · obtain ⟨hsettled, hends⟩ :=
      Run.Regime.passes Run.acyclicRegime_lawful hharmless hn Run.holds_start
    refine ⟨hsettled.mono fun depth n s ⟨_, hs, hends⟩ => ?_, Run.endsAcyclic_of_endsWell hends⟩
    exact ⟨Run.isAcyclic_of_holds hs, Run.endsAcyclic_of_endsWell hends⟩
  · exact Run.passes_harmless fun m hm => ⟨hn m hm, hstores m hm⟩

/-- A program with a list in a list, the items of which are replaced. -/
def nesting : String :=
  "LIST xs: Integer = [1, 2]; LIST ys: Any = [xs, 3]; " ++
  "FUN main(): Integer DO xs[0] = xs[1] + 5; ys[1] = (xs[0] * 2); print(ys); RETURN xs[0]; END"

theorem run_keeps_acyclic_nesting :
    ∃ t d, parse? nesting = some t ∧ t.analyze = .ok d ∧ ∀ depth,
      Run.Passes (fun depth n s => s.IsAcyclic ∧ Run.EndsAcyclic (Run.visit depth n s)) depth d
        (Run.start {} none) ∧ Run.EndsAcyclic (d.run depth) := by
  obtain ⟨t, d, ht, hd, hstores⟩ := exists_of_accepted? nesting
    (fun d => decide (d.Everywhere StoresComputed)) (by decide +kernel)
  obtain ⟨hacyclic, hharmless, -⟩ := run_keeps_acyclic ht hd
  exact ⟨t, d, ht, hd, fun depth => hacyclic depth (hharmless (of_decide_eq_true hstores) depth)⟩

/-- A program that stores a list in itself. -/
def swallowing : String :=
  "LIST xs: Integer = [1]; FUN main(): Integer DO xs[0] = xs; RETURN 0; END"

/-- The analysis accepts it, so it is not true that no list ever contains itself. -/
theorem not_forall_acyclic :
    ¬ ∀ (text : String) (t d : Node), parse? text = some t → t.analyze = .ok d → ∀ depth,
      ((Run.visit depth d).after (Run.start {} none)).store.IsAcyclic := by
  intro h
  obtain ⟨t, d, ht, hd, hlists⟩ := exists_of_accepted? swallowing
    (fun d => decide (((Run.visit 9 d).after (Run.start {} none)).store.lists = #[#[.list 0]]))
    (by decide +kernel)
  refine h swallowing t d ht hd 9 0 (.single ⟨.list 0, ?_, rfl⟩)
  rw [Store.list, of_decide_eq_true hlists]
  exact List.mem_cons_self

end Node

end PlcLang
