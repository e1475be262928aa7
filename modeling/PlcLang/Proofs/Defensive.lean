import PlcLang.Proofs.Evaluation.Faults
import PlcLang.Proofs.Shape

/-!
# Defensive faults

The analysis and the run check some things that are true of every program that has a text. These
checks are for trees that were built by hand and for stores that were prepared.

* `Fault.DefendsAnalysis`, `Fault.DefendsRun`: the faults of such checks.
* `Stop.Avoids`: the stops that are none of given faults.
* `Walk.Spares`: walks that only end so, with one rule for every way to build a walk.
* `Role`, `Node.Plays`: what a tree inside a program is there for.
-/

namespace PlcLang

/-! ## Faults -/

namespace Fault

/-- The analysis checks this only for trees that have no text. -/
def DefendsAnalysis : Fault → Prop
  | unsupportedNode _ | untypedGlobal _ | untypedParameter _ | missingDefault | earlyDefault
  | emptyList | invalidLiteral _ | unknownOperator _ | returnOutside => True
  | _ => False

/-- The run checks this only for trees that have no text and for stores that were prepared. -/
def DefendsRun : Fault → Prop
  | unsupportedNode _ | unknownOperator _ | foreignValue _ | bodyless _ | argumentCount .. => True
  | _ => False

end Fault

/-- If the stop is a fault, it does not have the property. -/
def Stop.Avoids (P : Fault → Prop) : Stop → Prop
  | .fault e => ¬ P e.fault
  | _ => True

theorem Stop.Avoids.attach {P : Fault → Prop} {e : Located Fault} (n : Node)
    (h : (Stop.fault e).Avoids P) : (Stop.fault (e.attach n)).Avoids P := by
  change ¬ P (e.attach n).fault
  rwa [Located.fault_attach]

/-! ## Walks -/

namespace Walk

variable {β ρ α γ : Type}

/-- Where `I` holds, the walk ends with no fault that has the property `P`. If there is a result, it
satisfies `Q`, and `I` still holds. -/
def Spares (I : State β ρ → Prop) (P : Fault → Prop) (x : Walk β ρ α) (Q : α → Prop) : Prop :=
  ∀ s, I s → Ends (Stop.Avoids P) x s fun a t => Q a ∧ I t

namespace Spares

variable {I : State β ρ → Prop} {P : Fault → Prop} {x : Walk β ρ α} {Q : α → Prop}

theorem pure {a : α} (h : Q a) : Spares I P (pure a) Q := fun _ hs => .pure ⟨h, hs⟩

theorem raise {f : Fault} (h : ¬ P f) : Spares I P (raise f) Q := fun _ _ => .raise h

theorem bind {x : Walk β ρ γ} {f : γ → Walk β ρ α} {Q' : γ → Prop} (h : Spares I P x Q')
    (hf : ∀ c, Q' c → Spares I P (f c) Q) : Spares I P (x >>= f) Q :=
  fun s hs => (h s hs).bind fun c t ⟨hc, ht⟩ => hf c hc t ht

theorem get_bind {f : State β ρ → Walk β ρ α} (h : ∀ s, I s → Spares I P (f s) Q) :
    Spares I P (get >>= f) Q :=
  fun s hs => .bind (P := fun c t => c = s ∧ t = s) (.get ⟨rfl, rfl⟩) fun _ _ ⟨hc, ht⟩ =>
    hc ▸ ht ▸ h s hs s hs

theorem mono {Q' : α → Prop} (h : Spares I P x Q') (hQ : ∀ a, Q' a → Q a) : Spares I P x Q :=
  fun s hs => (h s hs).mono fun a _ ha => ⟨hQ a ha.1, ha.2⟩

/-- Nothing is asked of the result. -/
theorem any (h : Spares I P x Q) : Spares I P x fun _ => True := h.mono fun _ _ => trivial

theorem ite {c : Prop} [Decidable c] {y : Walk β ρ α} (h : c → Spares I P x Q)
    (k : ¬ c → Spares I P y Q) : Spares I P (if c then x else y) Q := by
  split
  next hc => exact h hc
  next hc => exact k hc

theorem attached {node : Node} (h : Spares I P x Q) : Spares I P (attached node x) Q :=
  fun s hs => (h s hs).attached fun _ => .attach node

/-- Some walks leave the state alone. -/
theorem of_same (h : ∀ s, I s → Ends (Stop.Avoids P) x s fun a t => t = s ∧ Q a) : Spares I P x Q :=
  fun s hs => (h s hs).mono fun _ _ ⟨ht, ha⟩ => ⟨ha, ht ▸ hs⟩

theorem require {c : Bool} {f : Fault} (h : c = false → ¬ P f) :
    Spares I P (require c f) fun _ => c = true := .of_same fun _ _ => .require_ends h

theorem part {o : Option α} : Spares I P (part o) fun a => o = some a :=
  .of_same fun _ _ => .part_ends fun _ => trivial

theorem lift {y : Except Fault α} (h : ∀ f, y = .error f → ¬ P f) :
    Spares I P (lift y) fun a => y = .ok a := .of_same fun _ _ => .lift (fun _ ha => ⟨rfl, ha⟩) h

end Spares

end Walk

/-! ## Roles -/

/-- What a tree inside a program is there for. -/
inductive Role where
  /-- It has a value. -/
  | operand
  /-- It does something, and the function may return there. -/
  | action
  /-- It binds a name of the program. -/
  | binder
  deriving DecidableEq

namespace Node

variable (N : String → Prop)

/-- The roles of the trees inside a program. -/
inductive Plays : Role → Node → Prop
  | expression {e} : e.IsExpression N → Plays .operand e
  | list {e es t p} : (∀ a ∈ e :: es, a.IsExpression N) → Plays .operand (.listLiteral (e :: es) t p)
  | statement {s} : s.IsStatement N → Plays .action s
  | case {value ss p} : (∀ s ∈ ss, s.IsStatement N) → Plays .action (.case value ss p)
  | global {g} : g.IsGlobal N → Plays .binder g
  | function {f} : f.IsFunction N → Plays .binder f

variable {N}

/-- What is optional has a value if it is there. -/
theorem IsOptional.plays {e : Node} (h : e.IsOptional N) (hpresent : e.isPresent = true) :
    e.Plays N .operand := by
  rcases h with rfl | h
  · cases hpresent
  · exact .expression h

/-- A global names its type, and its initial value has a value if it is there. -/
theorem IsGlobal.exists_eq {g : Node} (h : g.IsGlobal N) : ∃ name typeName mutable value b p,
    g = .global (some name) (some typeName) mutable value b p ∧
      (value.isPresent = true → value.Plays N .operand) := by
  cases h with
  | list _ _ h => exact ⟨_, _, _, _, _, _, rfl, fun _ => .list h⟩
  | mutable _ _ h => exact ⟨_, _, _, _, _, _, rfl, h.plays⟩
  | immutable _ _ h => exact ⟨_, _, _, _, _, _, rfl, fun _ => .expression h⟩

end Node

end PlcLang
