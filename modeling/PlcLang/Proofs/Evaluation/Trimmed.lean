import PlcLang.Grammar.Statement
import PlcLang.Proofs.Evaluation.Simulation
import PlcLang.Proofs.Shape

/-!
# Statements behind a `RETURN`

No statement that stands behind a `RETURN` in its block is ever executed, so a program without some of
these statements, wherever they stand, runs like the program itself.

* `Node.Trims`: some of these statements are left out.
* `Node.trimmed`: all of them are left out.
* `Node.run_trims`: the result.
-/

namespace PlcLang

namespace Node

/-! ## Leaving out statements -/

/-- The second list has the statements of the first one, related by `R`, but not necessarily those behind
a `RETURN`. The flag says whether one stands in front of the lists already. -/
inductive TrimsBlock (R : Node → Node → Prop) : (returned : Bool) → List Node → List Node → Prop
  | nil {b : Bool} : TrimsBlock R b [] []
  | keep {b : Bool} {n m : Node} {ns ms : List Node} : R n m → TrimsBlock R (b || n.isReturning) ns ms →
      TrimsBlock R b (n :: ns) (m :: ms)
  | drop {n : Node} {ns ms : List Node} : TrimsBlock R true ns ms → TrimsBlock R true (n :: ns) ms

/-- The second tree is the first one without some of the statements that stand behind a `RETURN` in their
block: in the body of a function, in either block of a conditional, in a case or default, or in a loop. -/
inductive Trims : Node → Node → Prop
  | refl (n : Node) : Trims n n
  | conditional {c ts ts' es es' p} : TrimsBlock Trims false ts ts' → TrimsBlock Trims false es es' →
      Trims (.conditional c ts es p) (.conditional c ts' es' p)
  | case {value ss ss' p} : TrimsBlock Trims false ss ss' → Trims (.case value ss p) (.case value ss' p)
  | switch {c cs cs' p} : List.Forall₂ Trims cs cs' → Trims (.switch c cs p) (.switch c cs' p)
  | whileLoop {c ss ss' p} : TrimsBlock Trims false ss ss' → Trims (.whileLoop c ss p) (.whileLoop c ss' p)
  | function {name names types t ss ss' b p} : TrimsBlock Trims false ss ss' →
      Trims (.function name names types t ss b p) (.function name names types t ss' b p)
  | source {gs fs fs'} : List.Forall₂ Trims fs fs' → Trims (.source gs fs) (.source gs fs')

mutual

/-- The tree without any statement that stands behind a `RETURN` in its block. -/
def trimmed : Node → Node
  | conditional c ts es p => conditional c (trimmedBlock ts) (trimmedBlock es) p
  | case value ss p => case value (trimmedBlock ss) p
  | switch c cs p => switch c (eachTrimmed cs) p
  | whileLoop c ss p => whileLoop c (trimmedBlock ss) p
  | function name names types t ss b p => function name names types t (trimmedBlock ss) b p
  | source gs fs => source gs (eachTrimmed fs)
  | n => n

/-- The statements of a block up to the first `RETURN`. -/
def trimmedBlock : List Node → List Node
  | [] => []
  | n :: ns => n.trimmed :: if n.isReturning then [] else trimmedBlock ns

/-- Trees without any statement that stands behind a `RETURN` in its block. -/
def eachTrimmed : List Node → List Node
  | [] => []
  | n :: ns => n.trimmed :: eachTrimmed ns

end

theorem TrimsBlock.refl {R : Node → Node → Prop} (hR : ∀ n, R n n) (b : Bool) (ns : List Node) :
    TrimsBlock R b ns ns := by
  induction ns generalizing b with
  | nil => exact .nil
  | cons n ns ih => exact .keep (hR n) (ih _)

/-- Behind a `RETURN` all statements may be left out. -/
theorem TrimsBlock.all {R : Node → Node → Prop} (ns : List Node) : TrimsBlock R true ns [] := by
  induction ns with
  | nil => exact .nil
  | cons n ns ih => exact .drop ih

theorem trimsBlock_trimmedBlock {ns : List Node} (h : ∀ n ∈ ns, n.Trims n.trimmed) :
    TrimsBlock Trims false ns (trimmedBlock ns) := by
  induction ns with
  | nil => exact .nil
  | cons n ns ih =>
    obtain ⟨hn, hns⟩ := List.forall_mem_cons.mp h
    refine .keep hn ?_
    cases hr : n.isReturning with
    | true => exact .all ns
    | false => exact ih hns

theorem trims_eachTrimmed {ns : List Node} (h : ∀ n ∈ ns, n.Trims n.trimmed) :
    List.Forall₂ Trims ns (eachTrimmed ns) := by
  induction ns with
  | nil => exact .nil
  | cons n ns ih =>
    obtain ⟨hn, hns⟩ := List.forall_mem_cons.mp h
    exact .cons hn (ih hns)

/-- Every tree may be trimmed. -/
theorem trims_trimmed (n : Node) : n.Trims n.trimmed := by
  refine forall_of_children (P := fun n => n.Trims n.trimmed) (fun n ih => ?_) n
  cases n with
  | conditional c ts es p =>
    obtain ⟨hts, hes⟩ := List.forall_mem_append.mp (List.forall_mem_cons.mp ih).2
    exact .conditional (trimsBlock_trimmedBlock hts) (trimsBlock_trimmedBlock hes)
  | case value ss p => exact .case (trimsBlock_trimmedBlock (List.forall_mem_cons.mp ih).2)
  | switch c cs p => exact .switch (trims_eachTrimmed (List.forall_mem_cons.mp ih).2)
  | whileLoop c ss p => exact .whileLoop (trimsBlock_trimmedBlock (List.forall_mem_cons.mp ih).2)
  | function name names types t ss b p => exact .function (trimsBlock_trimmedBlock ih)
  | source gs fs => exact .source (trims_eachTrimmed (List.forall_mem_append.mp ih).2)
  | _ => exact .refl _

end Node

namespace Run

/-! ## Runs -/

/-- Nodes and blocks correspond to each other if statements behind a `RETURN` were left out. -/
def trimming : Pairing where
  node := Node.Trims
  block := Node.TrimsBlock Node.Trims false

theorem trimming_lawful : trimming.Lawful where
  refl := .refl
  parts {n m} h := by
    have hrefl (n : Node) : trimming.Parts n n :=
      Pairing.Parts.refl Node.Trims.refl (Node.TrimsBlock.refl Node.Trims.refl false) n
    have hlist (ns : List Node) : List.Forall₂ Node.Trims ns ns := List.forall₂_same.mpr fun n _ => .refl n
    cases h with
    | refl => exact hrefl n
    | conditional hts hes => exact .conditional (.refl _) hts hes
    | case hss => exact .case (.refl _) hss
    | switch hcs => exact .switch (.refl _) hcs
    | whileLoop hss => exact .whileLoop (.refl _) hss
    | function hss => exact .function hss
    | source hfs => exact .source (hlist _) hfs
  block {ns ms} h := by
    cases h with
    | nil => exact .inl ⟨rfl, rfl⟩
    | keep hn hns =>
      refine .inr ⟨_, _, _, _, rfl, rfl, hn, fun hr => ?_⟩
      rwa [hr] at hns

end Run

namespace Node

open Run

/-- **Nothing behind a `RETURN` is ever executed.** If statements that stand behind a `RETURN` in their
block are left out, in any blocks of any functions, the program runs as before: in every depth both runs
have printed the same text and return the same value, or they fail with the same fault at the same place
and at nodes that correspond to each other, or both are cut off. -/
theorem run_trims {t t' : Node} (h : t.Trims t') (depth : Nat) :
    Run.SameEnd Trims (t.run depth) (t'.run depth) :=
  ((visit_simulates trimming_lawful depth).inStep h _ _ (.refl (TrimsBlock.refl Trims.refl false) _)).sameEnd

/-- Statements behind a `RETURN` in a loop and in a function; the run fails in front of one of them. -/
def dividing : String :=
  "FUN f(): Any DO WHILE TRUE DO RETURN 7; print(1); END END " ++
  "FUN main(): Any DO print(f()); RETURN 1 / 0; print(2); END"

/-- The run has printed the text and has failed because of a division. -/
def failsAtDivision (t : Node) (text : String) : Bool :=
  match t.run 20 with
  | .error (.fault e) s => e.fault = .divisionByZero && s.register = text
  | _ => false

theorem run_trims_dividing :
    ∃ t, parse? dividing = some t ∧ t.trimmed.subtrees.length < t.subtrees.length ∧
      failsAtDivision t "7\n" = true ∧ Run.SameEnd Trims (t.run 20) (t.trimmed.run 20) := by
  have hparsed : (parse? dividing).any (fun t => decide (t.trimmed.subtrees.length < t.subtrees.length) &&
      failsAtDivision t "7\n") = true := by
    decide +kernel
  obtain ⟨t, ht, hchecks⟩ := (Option.any_eq_true _ _).mp hparsed
  obtain ⟨hless, hfails⟩ := Bool.and_eq_true_iff.mp hchecks
  exact ⟨t, ht, of_decide_eq_true hless, hfails, run_trims (trims_trimmed t) 20⟩

end Node

end PlcLang
