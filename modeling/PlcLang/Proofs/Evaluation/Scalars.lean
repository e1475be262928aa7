import PlcLang.Proofs.Evaluation.Depth
import PlcLang.Proofs.Evaluation.Flat
import PlcLang.Proofs.Evaluation.Operands
import PlcLang.Proofs.Evaluation.Program
import PlcLang.Proofs.Typing.Decision

/-!
# Type soundness without lists

A program in which there are no lists, variables start with values of their types and functions do not
end without returning is type sound: every value has the type that the analysis gave to the
expression.

* `Run.operate_sparesTypes`: operations on operands of their types.
* `Node.IsScalar`: the restrictions, node by node.
* `Node.run_admits_types`: the result.
-/

namespace PlcLang

open Typing

/-! ## Values of a type -/

namespace Ty

variable {τ σ : Ty} {v : Value}

theorem Admits.of_accepts (h : τ.Accepts σ) (hv : σ.Admits v) : τ.Admits v := by
  obtain ⟨a, ρ, rfl, hρ, haccepts, ha⟩ := hv
  exact ⟨a, ρ, rfl, hρ, h.trans haccepts, ha⟩

theorem Admits.integer (h : Admits .integer v) : ∃ i, v = .integer i ∧ Word.InRange i := by
  obtain ⟨i, rfl⟩ := h.includes.integer
  obtain ⟨_, _, ⟨⟩, -, -, hi⟩ := h
  exact ⟨i, rfl, hi⟩

theorem admits_nil (h : some τ.name = some Ty.nil.name ∨ some τ.name = some Ty.any.name) :
    τ.Admits .nil := by
  rcases h with h | h
  · obtain rfl := name_injective (Option.some.inj h)
    exact admits_of_literalType .nil
  · obtain rfl := name_injective (Option.some.inj h)
    exact .of_accepts (.inl rfl) (admits_of_literalType .nil)

theorem Admits.isFlat (h : τ.Admits v) : v.IsFlat := by
  obtain ⟨a, _, rfl, -, -, ha⟩ := h
  exact ha

end Ty

/-! ## Operations -/

namespace Run

/-- A run may only be cut off, or a number become too large or too small, which can be put into words. -/
def SparesTypes (e : Stop) : Prop := e = .unfinished ∨ e.category? = some .range ∧ e.IsWritable

variable {s : State Body String} {τ ρ σ : Ty} {v l r : Value} {op : Operator}

theorem textOf_admits {F : Stop → Prop} (h : τ.Admits v) :
    Ends F (textOf v) s fun _ s' => s' = s :=
  .reading (fun _ _ => rfl) fun _ he => absurd he (Store.text_ne_error h.isFlat)

/-- Scalars within bounds can be written. -/
theorem not_overlong_of_isFlat (hl : l.IsFlat) (hr : r.IsFlat) : ¬ Overlong op l r s := by
  rintro (⟨-, -, h⟩ | ⟨-, -, rfl, -, hfits⟩)
  · exact h.elim (Store.not_isOverlong_of_isFlat hl).2 (Store.not_isOverlong_of_isFlat hr).2
  · exact hfits (Word.InRange.fits hr)

theorem equal_admits {F : Stop → Prop} (hl : σ.Admits l) (hr : τ.Admits r) :
    Ends F (equal l r) s fun _ s' => s' = s := by
  obtain ⟨a, _, rfl, ha, -⟩ := hl
  obtain ⟨b, _, rfl, hb, -⟩ := hr
  exact equal_scalars ha hb

/-- Operations on scalars only decline if a number is too large or too small. Values of an unknown
ordered type are not put in order. -/
theorem operate_sparesTypes (h : OperatorType op ρ σ τ)
    (hcomparable : op = .less ∨ op = .greater → ρ ≠ .comparable) (hl : ρ.Admits l) (hr : σ.Admits r) :
    Ends SparesTypes (operate op l r) s fun v s' => τ.Admits v ∧ s' = s := by
  refine (operate_admits h hl.includes hr.includes).imp fun e he => ?_
  cases he with
  | range he hwritable => exact .inr ⟨congrArg some he, hwritable⟩
  | mixed hmixed =>
    obtain ⟨hρ, -⟩ := hmixed.eq_comparable h hl.includes hr.includes
    exact absurd hρ (hcomparable hmixed.1)
  | unwritten h =>
    cases h with
    | textless => exact .inl rfl
    | overlong h => exact absurd h (not_overlong_of_isFlat hl.isFlat hr.isFlat)

/-! ## Programs -/

theorem endsInReturn_iff {ss : List Node} :
    EndsInReturn ss ↔ (match ss.getLast? with
      | some (.returning ..) => true
      | _ => false) = true := by
  constructor
  · rintro ⟨init, e, p, rfl⟩
    rw [List.getLast?_concat]
  · intro h
    split at h
    next e p hlast =>
      obtain ⟨init, rfl⟩ := List.getLast?_eq_some_iff.mp hlast
      exact ⟨init, e, p, rfl⟩
    next => cases h

instance (ss : List Node) : Decidable (EndsInReturn ss) := decidable_of_iff' _ endsInReturn_iff

end Run

/-- There are no lists; a variable without a value has a type that does not need one; a function that
returns something has a return at its end; and values of an unknown ordered type are not put in
order. -/
def Node.IsScalar : Node → Prop
  | listLiteral .. => False
  | access _ offset .. => offset.isPresent = false
  | declaration _ typeName value _ _ | global _ typeName _ value _ _ =>
    value.isPresent = false → typeName = some Ty.nil.name ∨ typeName = some Ty.any.name
  | function _ _ _ returnName ss _ _ =>
    returnName = none ∨ returnName = some Ty.nil.name ∨ returnName = some Ty.any.name ∨
      Run.EndsInReturn ss
  | binary op l r _ _ =>
    op = .less ∨ op = .greater → ¬ (l.type? = some .comparable ∧ r.type? = some .comparable)
  | _ => True

namespace Node

instance : DecidablePred IsScalar := fun n =>
  match n with
  | listLiteral .. => inferInstanceAs (Decidable False)
  | access _ offset .. => inferInstanceAs (Decidable (offset.isPresent = false))
  | declaration _ _ value _ _ | global _ _ _ value _ _ =>
    inferInstanceAs (Decidable (value.isPresent = false → _))
  | function _ _ _ _ ss _ _ => inferInstanceAs (Decidable (_ ∨ _ ∨ _ ∨ Run.EndsInReturn ss))
  | binary _ l r _ _ => inferInstanceAs (Decidable (_ → ¬ (l.type? = _ ∧ r.type? = _)))
  | missing | bare _ | literal .. | group .. | call .. | expressionStatement .. | assignment ..
  | conditional .. | case .. | switch .. | whileLoop .. | returning .. | source .. =>
    inferInstanceAs (Decidable True)

end Node

namespace Run

/-- The discipline of types. -/
def typeDiscipline (d : Node) : Discipline where
  holds _ := Ty.Admits
  fails := SparesTypes
  allows n := d.Contains n ∧ n.IsScalar

theorem sparesTypes_attach {e : Located Fault} (n : Node) (h : SparesTypes (.fault e)) :
    SparesTypes (.fault (e.attach n)) := by
  rcases h with h | ⟨h, hwritable⟩
  · cases h
  · exact .inr ⟨(Stop.category?_attach e n).trans h, hwritable.attach n⟩

theorem ne_comparable {op : Operator} {left right : Node} {t : Option Ty} {p : Place} {ρ σ τ : Ty}
    (h : (Node.binary op left right t p).IsScalar) (hleft : left.type? = some ρ)
    (hright : right.type? = some σ) (hτ : OperatorType op ρ σ τ) (hop : op = .less ∨ op = .greater) :
    ρ ≠ .comparable := by
  rintro rfl
  refine h hop ⟨hleft, hright.trans ?_⟩
  cases hτ with
  | comparison => rfl
  | arithmetic _ h => rcases h with h | h <;> cases h
  | concatenation | power => rcases hop with hop | hop <;> cases hop

/-- The end of a function is not reached, or it need not return anything. -/
theorem endsInReturn_or_admits {returnName : Name} {ss : List Node} {R : Ty}
    (h : returnName = none ∨ returnName = some Ty.nil.name ∨ returnName = some Ty.any.name ∨
      EndsInReturn ss) (hR : ReturnType returnName R) : EndsInReturn ss ∨ R.Admits .nil := by
  cases hR with
  | none => exact .inr (Ty.admits_of_literalType .nil)
  | named =>
    rcases h with h | h | h | h
    · cases h
    · exact .inr (Ty.admits_nil (.inl h))
    · exact .inr (Ty.admits_nil (.inr h))
    · exact .inl h

/-- Programs without lists can be run under this discipline. -/
theorem typeDiscipline_lawful (d : Node) : (typeDiscipline d).Lawful d where
  contains h := h.1
  unfinished := .inl rfl
  attach n _ h := sparesTypes_attach n h
  mono _ hv := hv
  accepts := .of_accepts
  literal := Ty.admits_of_literalType
  requireBoolean h := requireBoolean_includes h.includes
  operate hallows hleft hright h _ hl hr :=
    operate_sparesTypes h (ne_comparable hallows.2 hleft hright h) hl hr
  equal := equal_admits
  textOf := textOf_admits
  declaration h _ := Ty.admits_nil (h.2 rfl)
  global h _ := Ty.admits_nil (h.2 rfl)
  complete h hR := (endsInReturn_or_admits h.2 hR).imp_right fun hnil _ => hnil
  list h := h.2.elim
  item h hoffset := absurd (hoffset.symm.trans h.2) nofun
  setItem _ _ hid _ _ := by
    obtain ⟨_, _, hid, -⟩ := hid
    cases hid

end Run

namespace Node

/-- **Programs without lists are type sound.** In every run of an accepted program every expression
that is evaluated to a value has one of the type that the analysis gave to it. The run does not
terminate, or a number becomes too large or too small, or the program returns an integer in range. -/
theorem run_admits_types {text : String} {t d : Node} (h : parse? text = some t)
    (hd : t.analyze = .ok d) (hscalar : d.Everywhere IsScalar) :
    (∀ depth, Run.Passes (fun depth n s => ∀ τ v s', n.type? = some τ →
        Run.visit depth n s = .ok v s' → τ.Admits v) depth d (Run.start {} none)) ∧
      ((∀ depth, ∃ s, d.run depth = .error .unfinished s) ∨
        ∃ depth, (∀ depth', depth ≤ depth' → d.run depth' = d.run depth) ∧
          ((∃ e s, d.run depth = .error e s ∧ e.category? = some .range ∧ e.IsWritable) ∨
            ∃ i s, d.run depth = .ok (.integer i) s ∧ Word.InRange i)) := by
  obtain ⟨σ, -, hwell⟩ := exists_visit_wellTyped h hd
  have hrun (otherwise : Nat → Node → Run Value) (depth : Nat) :=
    Run.agrees_of_wellTyped (Run.typeDiscipline_lawful d) hwell (fun n hn => ⟨hn, hscalar n hn⟩)
      otherwise depth
  refine ⟨fun depth => Run.Passes.mono (fun otherwise => (hrun otherwise depth).1)
    fun _ _ _ hc τ v s' hτ hv => (hc.2 τ v s' hτ hv).elim fun _ hv => hv, ?_⟩
  rcases Run.terminates_or_not d (Run.start {} none) with hnever | ⟨depth, hfinished, hstable⟩
  · exact .inl hnever
  · refine .inr ⟨depth, hstable, ?_⟩
    have hends := (hrun (fun _ _ => pure .nil) depth).2
    unfold Node.run
    cases hresult : Run.visit depth d (Run.start {} none) with
    | ok v s =>
      rw [hresult] at hends
      obtain ⟨_, hinteger⟩ := hends
      obtain ⟨i, rfl, hi⟩ := Ty.Admits.integer hinteger
      exact .inr ⟨i, s, rfl, hi⟩
    | error e s =>
      rw [hresult] at hends
      rcases hends with rfl | hrange
      · exact absurd hresult (hfinished s)
      · exact .inl ⟨e, s, rfl, hrange⟩

/-- A program with a comparison, a loop and a call, whose values are of different types. -/
def factorial : String :=
  "FUN f(n: Integer): Integer DO LET r = 1; WHILE n > 1 DO r = r * n; n = n - 1; END RETURN r; END " ++
  "FUN main(): Integer DO RETURN f(5); END"

theorem run_admits_types_factorial :
    ∃ t d, parse? factorial = some t ∧ t.analyze = .ok d ∧ d.Everywhere IsScalar ∧
      ∀ depth, Run.Passes (fun depth n s => ∀ τ v s', n.type? = some τ →
        Run.visit depth n s = .ok v s' → τ.Admits v) depth d (Run.start {} none) := by
  obtain ⟨t, d, ht, hd, hscalar⟩ := exists_of_accepted?
    factorial (fun d => decide (d.Everywhere IsScalar)) (by decide +kernel)
  have hscalar := of_decide_eq_true hscalar
  exact ⟨t, d, ht, hd, hscalar, (run_admits_types ht hd hscalar).1⟩

end Node

end PlcLang
