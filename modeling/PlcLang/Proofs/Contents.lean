import Mathlib
import PlcLang.Store.Contents

/-!
# Lists that contain themselves

A value has contents unless a list somewhere in it contains itself.

* `Store.Holds`: a list is an item of another one.
* `Store.IsCircular`: some list in the value contains itself.
* `Store.datum?_eq_none_iff`: the values without contents.
-/

namespace PlcLang

/-- The list that a value refers to. -/
def Value.list? : Value → Option ListId
  | list id => some id
  | returned value => value.list?
  | _ => none

namespace Store

open Relation

variable {β : Type} {s : Store β} {i j : ListId} {v : Value} {depth : Nat}

/-- The list `i` has an item that refers to the list `j`. -/
def Holds (s : Store β) (i j : ListId) : Prop := ∃ v ∈ (s.list i).toList, v.list? = some j

/-- The value refers to a list that contains itself, or has such a list somewhere in it. -/
def IsCircular (s : Store β) (v : Value) : Prop :=
  ∃ i j, v.list? = some i ∧ ReflTransGen s.Holds i j ∧ TransGen s.Holds j j

/-- If the value refers to a list, it is one of the store. -/
def Knows (s : Store β) (v : Value) : Prop := ∀ i ∈ v.list?, i < s.lists.size

instance : Decidable (s.Knows v) := inferInstanceAs (Decidable (∀ i ∈ v.list?, i < s.lists.size))

/-- Lists only have items that refer to lists of the store. -/
def IsClosed (s : Store β) : Prop := ∀ items ∈ s.lists.toList, ∀ v ∈ items.toList, s.Knows v

instance : Decidable s.IsClosed :=
  inferInstanceAs (Decidable (∀ items ∈ s.lists.toList, ∀ v ∈ items.toList, s.Knows v))

theorem IsClosed.lt (h : s.IsClosed) (hij : s.Holds i j) : j < s.lists.size := by
  obtain ⟨v, hv, hj⟩ := hij
  rw [list, Array.getD_eq_getD_getElem?] at hv
  cases hitems : s.lists[i]? with
  | none => simp [hitems] at hv
  | some items =>
    rw [hitems] at hv
    exact h items (Array.mem_toList_iff.mpr (Array.mem_of_getElem? hitems)) v hv j hj

/-! ## One step -/

theorem datumWith_eq_none_iff {contents : ListId → Option Datum} :
    datumWith contents v = none ↔ ∃ i, v.list? = some i ∧ contents i = none := by
  induction v with
  | scalar | carryOn => simp [datumWith, Value.list?]
  | list id => simp [datumWith, Value.list?]
  | returned value ih => simpa [datumWith, Value.list?] using ih

theorem mapM_eq_none_iff {α γ : Type} {f : α → Option γ} {l : List α} :
    l.mapM f = none ↔ ∃ a ∈ l, f a = none := by
  induction l with
  | nil => simp
  | cons a l ih =>
    rw [List.mapM_cons]
    cases ha : f a with
    | none => simp [ha]
    | some b => cases hl : l.mapM f <;> simp [ha, hl, ← ih]

/-- A list has no contents if an item has none. -/
theorem listDatum_succ_eq_none_iff :
    s.listDatum (depth + 1) i = none ↔ ∃ j, s.Holds i j ∧ s.listDatum depth j = none := by
  rw [listDatum, Option.map_eq_none_iff, mapM_eq_none_iff]
  simp only [datumWith_eq_none_iff, Holds]
  constructor
  · rintro ⟨v, hv, j, hj, hnone⟩
    exact ⟨j, ⟨v, hv, hj⟩, hnone⟩
  · rintro ⟨j, ⟨v, hv, hj⟩, hnone⟩
    exact ⟨v, hv, j, hj, hnone⟩

/-! ## Lists with a cycle -/

/-- From a cycle one can go on forever. -/
theorem listDatum_of_cycle (hij : ReflTransGen s.Holds i j) (hjj : TransGen s.Holds j j) :
    s.listDatum depth i = none := by
  induction depth generalizing i with
  | zero => rfl
  | succ depth ih =>
    obtain ⟨k, hik, hkj⟩ := TransGen.head'_iff.mp (TransGen.trans_right hij hjj)
    exact listDatum_succ_eq_none_iff.mpr ⟨k, hik, ih hkj⟩

/-! ## Lists without a cycle -/

open Classical in
/-- The lists in a list, itself included. -/
noncomputable def within (s : Store β) (i : ListId) : Finset ListId :=
  (Finset.range s.lists.size).filter (ReflTransGen s.Holds i)

theorem mem_within : j ∈ s.within i ↔ j < s.lists.size ∧ ReflTransGen s.Holds i j := by
  simp [within]

open Classical in
theorem card_within_le (s : Store β) (i : ListId) : (s.within i).card ≤ s.lists.size :=
  (Finset.card_filter_le _ _).trans_eq (Finset.card_range _)

/-- Unless a list contains itself, its items have fewer lists in them. -/
theorem card_within_lt (hi : i < s.lists.size) (hij : s.Holds i j) (hcycle : ¬ TransGen s.Holds i i) :
    (s.within j).card < (s.within i).card := by
  refine Finset.card_lt_card (Finset.ssubset_iff_of_subset ?_ |>.mpr ⟨i, ?_, ?_⟩)
  · intro k hk
    obtain ⟨hlt, hjk⟩ := mem_within.mp hk
    exact mem_within.mpr ⟨hlt, hjk.head hij⟩
  · exact mem_within.mpr ⟨hi, .refl⟩
  · intro hmem
    exact hcycle (.head' hij (mem_within.mp hmem).2)

/-- A list has contents as deep as there are lists in it, unless one of these contains itself. -/
theorem listDatum_ne_none (hclosed : s.IsClosed) (hi : i < s.lists.size)
    (hcycle : ∀ j, ReflTransGen s.Holds i j → ¬ TransGen s.Holds j j)
    (hdepth : (s.within i).card ≤ depth) : s.listDatum depth i ≠ none := by
  induction depth generalizing i with
  | zero =>
    have hmem : i ∈ s.within i := mem_within.mpr ⟨hi, .refl⟩
    exact absurd (Finset.card_pos.mpr ⟨i, hmem⟩) (Nat.not_lt.mpr hdepth)
  | succ depth ih =>
    rw [Ne, listDatum_succ_eq_none_iff]
    rintro ⟨j, hij, hnone⟩
    have hlt := card_within_lt hi hij (hcycle i .refl)
    exact ih (hclosed.lt hij) (fun k hjk => hcycle k (hjk.head hij)) (by omega) hnone

/-- **The values without contents** are those in which a list contains itself. -/
theorem datum?_eq_none_iff (hclosed : s.IsClosed) (hv : s.Knows v) :
    s.datum? v = none ↔ s.IsCircular v := by
  rw [datum?, datumWith_eq_none_iff]
  constructor
  · rintro ⟨i, hi, hnone⟩
    by_contra hno
    refine listDatum_ne_none hclosed (hv i hi) (fun j hij hjj => ?_) (s.card_within_le i) hnone
    exact hno ⟨i, j, hi, hij, hjj⟩
  · rintro ⟨i, j, hi, hij, hjj⟩
    exact ⟨i, hi, listDatum_of_cycle hij hjj⟩

end Store

end PlcLang
