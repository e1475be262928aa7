import PlcLang.Proofs.Store
import PlcLang.Proofs.Texts

/-!
# Stores in which no list contains itself

What keeps it so, and what follows from it: every value has contents, which can be written unless an
integer in them is too long, and whether two values are equal can be found out.

* `Store.IsAcyclic`, `Store.Reaches`: no list contains itself; a value is a list or contains it.
* `Store.isAcyclic_newList`, `Store.isAcyclic_setItem`: what keeps it so.
* `Store.holds_self_of_reaches`: what does not.
* `Store.datum?_ne_none`, `Store.equal_ne_unfinished`: contents and equality.
* `Store.rank`: how deep lists are nested.
-/

namespace PlcLang

namespace Store

open Relation

variable {β : Type} {s : Store β} {i j k id : ListId} {index : Nat} {v w : Value}

/-- No list contains itself, directly or through other lists. -/
def IsAcyclic (s : Store β) : Prop := ∀ i, ¬ TransGen s.Holds i i

/-- The value is the list, or the list is somewhere in it. -/
def Reaches (s : Store β) (v : Value) (id : ListId) : Prop :=
  ∃ j, v.list? = some j ∧ ReflTransGen s.Holds j id

/-! ## New lists -/

theorem list_newList_of_lt {items : Array Value} (h : i < s.lists.size) :
    (s.newList items).2.list i = s.list i := by
  simp [list, newList, Array.getD_eq_getD_getElem?, Array.getElem?_push, Nat.ne_of_lt h]

theorem list_of_ge (h : s.lists.size ≤ i) : s.list i = #[] := by
  simp [list, Array.getD_eq_getD_getElem?, Array.getElem?_eq_none h]

theorem list_newList_size {items : Array Value} : (s.newList items).2.list s.lists.size = items := by
  simp [list, newList, Array.getD_eq_getD_getElem?]

/-- No list refers to a new one. -/
theorem holds_newList {items : Array Value} (hclosed : s.IsClosed) (hitems : ∀ v ∈ items, s.Knows v)
    (h : (s.newList items).2.Holds i j) : j < s.lists.size ∧ (i < s.lists.size → s.Holds i j) := by
  obtain ⟨v, hv, hj⟩ := h
  rcases Nat.lt_trichotomy i s.lists.size with hi | rfl | hi
  · rw [list_newList_of_lt hi] at hv
    have hij : s.Holds i j := ⟨v, hv, hj⟩
    exact ⟨hclosed.lt hij, fun _ => hij⟩
  · rw [list_newList_size] at hv
    exact ⟨hitems v (Array.mem_toList_iff.mp hv) j hj, fun hlt => absurd hlt (Nat.lt_irrefl _)⟩
  · rw [list_of_ge (by simpa [newList] using hi)] at hv
    cases hv

/-- A new list does not contain itself. -/
theorem isAcyclic_newList {items : Array Value} (h : s.IsAcyclic) (hclosed : s.IsClosed)
    (hitems : ∀ v ∈ items, s.Knows v) : (s.newList items).2.IsAcyclic := by
  have hold {i j : ListId} (hij : TransGen (s.newList items).2.Holds i j) (hi : i < s.lists.size) :
      TransGen s.Holds i j ∧ j < s.lists.size := by
    induction hij with
    | single hij =>
      obtain ⟨hj, hold⟩ := holds_newList hclosed hitems hij
      exact ⟨.single (hold hi), hj⟩
    | tail _ hjk ih =>
      obtain ⟨hk, hold⟩ := holds_newList hclosed hitems hjk
      exact ⟨.tail ih.1 (hold ih.2), hk⟩
  intro i hi
  obtain ⟨j, -, hj⟩ := TransGen.tail'_iff.mp hi
  exact h i (hold hi (holds_newList hclosed hitems hj).1).1

/-! ## Replaced items -/

theorem list_setItem_of_ne (h : i ≠ id) : (s.setItem id index v).list i = s.list i := by
  simp [list, setItem, Array.getD_eq_getD_getElem?, Array.getElem?_modify, h.symm]

theorem list_setItem_self : (s.setItem id index v).list id = (s.list id).setIfInBounds index v := by
  unfold list setItem
  rw [Array.getD_eq_getD_getElem?, Array.getD_eq_getD_getElem?, Array.getElem?_modify, if_pos rfl]
  cases s.lists[id]? <;> simp

theorem holds_setItem (h : (s.setItem id index v).Holds i j) :
    s.Holds i j ∨ i = id ∧ v.list? = some j := by
  obtain ⟨w, hw, hj⟩ := h
  by_cases hi : i = id
  · subst hi
    rw [list_setItem_self] at hw
    rcases Array.mem_or_eq_of_mem_setIfInBounds (Array.mem_toList_iff.mp hw) with hw | rfl
    · exact .inl ⟨w, Array.mem_toList_iff.mpr hw, hj⟩
    · exact .inr ⟨rfl, hj⟩
  · rw [list_setItem_of_ne hi] at hw
    exact .inl ⟨w, hw, hj⟩

/-- A list that gets a value from which it cannot be reached does not contain itself. -/
theorem isAcyclic_setItem (h : s.IsAcyclic) (hv : ¬ s.Reaches v id) :
    (s.setItem id index v).IsAcyclic := by
  -- a path that uses the new reference goes through the list and then from what is stored
  have hpath {i j : ListId} (hij : TransGen (s.setItem id index v).Holds i j) :
      TransGen s.Holds i j ∨ ReflTransGen s.Holds i id ∧ s.Reaches v j := by
    induction hij with
    | single hij =>
      rcases holds_setItem hij with hij | ⟨rfl, hj⟩
      · exact .inl (.single hij)
      · exact .inr ⟨.refl, _, hj, .refl⟩
    | tail _ hjk ih =>
      rcases holds_setItem hjk with hjk | ⟨rfl, hk⟩
      · exact ih.imp (·.tail hjk) fun ⟨hid, m, hm, hmj⟩ => ⟨hid, m, hm, hmj.tail hjk⟩
      · rcases ih with hid | ⟨-, hreaches⟩
        · exact .inr ⟨hid.to_reflTransGen, _, hk, .refl⟩
        · exact absurd hreaches hv
  intro i hi
  rcases hpath hi with hi | ⟨hid, m, hm, hmi⟩
  · exact h i hi
  · exact hv ⟨m, hm, hmi.trans hid⟩

/-- A list that gets a value from which it can be reached contains itself. -/
theorem holds_self_of_reaches (hv : s.Reaches v id) (hindex : index < (s.list id).size) :
    TransGen (s.setItem id index v).Holds id id := by
  obtain ⟨j, hj, hpath⟩ := hv
  have hfirst : (s.setItem id index v).Holds id j := by
    refine ⟨v, ?_, hj⟩
    rw [list_setItem_self, Array.mem_toList_iff]
    exact Array.mem_setIfInBounds hindex
  refine TransGen.head' hfirst ?_
  -- only the part of the path up to the list is needed, and no item of that part has changed
  clear hfirst hj
  induction hpath using ReflTransGen.head_induction_on with
  | refl => exact .refl
  | @head a b hab _ ih =>
    by_cases ha : a = id
    · exact ha ▸ .refl
    · obtain ⟨w, hw, hb⟩ := hab
      exact .head ⟨w, by rwa [list_setItem_of_ne ha], hb⟩ ih

/-! ## Texts and equality -/

/-- Every value has contents. -/
theorem datum?_ne_none (h : s.IsAcyclic) (hclosed : s.IsClosed) (hv : s.Knows v) : s.datum? v ≠ none := by
  rw [Ne, datum?_eq_none_iff hclosed hv]
  rintro ⟨_, j, -, -, hj⟩
  exact h j hj

theorem bind_ne_error {ε α γ : Type} {x : Except ε α} {f : α → Except ε γ} {e : ε}
    (hx : x ≠ .error e) (hf : ∀ a, f a ≠ .error e) : x >>= f ≠ .error e := by
  cases x with
  | ok a => exact hf a
  | error e' => exact fun h => hx (congrArg Except.error (Except.error.inj h))

theorem typeOf_ne_unfinished (h : s.IsAcyclic) (hclosed : s.IsClosed) (hv : s.Knows v) :
    s.typeOf v ≠ .error .unfinished := fun he =>
  of_typeOf (F := (· ≠ .unfinished)) he (fun hnone => absurd hnone (datum?_ne_none h hclosed hv))
    (fun _ => nofun) (fun _ => nofun) rfl

theorem equalParts_ne_unfinished (h : s.IsAcyclic) (hclosed : s.IsClosed) (hv : s.Knows v)
    (hw : s.Knows w) : s.equalParts v w ≠ .error .unfinished := by
  unfold equalParts
  split
  · exact nofun
  · exact nofun
  · refine bind_ne_error (typeOf_ne_unfinished h hclosed hv) fun _ => ?_
    refine bind_ne_error (typeOf_ne_unfinished h hclosed hw) fun _ => ?_
    split <;> exact nofun

/-- How deep lists are nested in a value at most, unless one of them contains itself. -/
noncomputable def rank (s : Store β) (v : Value) : Nat := v.list?.elim 0 fun i => (s.within i).card

theorem rank_le (s : Store β) (v : Value) : s.rank v ≤ s.lists.size := by
  unfold rank
  cases v.list? with
  | none => exact Nat.zero_le _
  | some i => exact s.card_within_le i

/-- Items are nested less deep than the list they are in. -/
theorem rank_lt (hi : i < s.lists.size) (hcycle : ¬ TransGen s.Holds i i) (hv : v ∈ (s.list i).toList) :
    s.rank v < s.rank (.list i) := by
  change _ < (s.within i).card
  unfold rank
  cases hj : v.list? with
  | none => exact Finset.card_pos.mpr ⟨i, mem_within.mpr ⟨hi, .refl⟩⟩
  | some j => exact card_within_lt hi ⟨v, hv, hj⟩ hcycle

/-- A comparison goes down to values that are not both lists, and does not end early unless one of these
comparisons does. -/
theorem equalWithin_ne_error {P : Value → Prop} {e : Stop} {depth : Nat}
    (hlist : ∀ i, P (.list i) →
      i < s.lists.size ∧ ¬ TransGen s.Holds i i ∧ ∀ v ∈ (s.list i).toList, P v)
    (hparts : ∀ v w, P v → P w → s.equalParts v w ≠ .error e) (hv : P v) (hw : P w)
    (hdepth : s.rank v < depth) : s.equalWithin depth v w ≠ .error e := by
  induction depth generalizing v w with
  | zero => cases hdepth
  | succ depth ih =>
    unfold equalWithin
    split
    next i j =>
      split
      next hsize =>
        intro he
        obtain ⟨x, hx, y, hy, he⟩ := exists_of_allEqual_eq_error he
        obtain ⟨hi, hcycle, hitems⟩ := hlist i hv
        have hrank := rank_lt hi hcycle hx
        exact ih (hitems x hx) ((hlist j hw).2.2 y hy) (by omega) he
      next => exact nofun
    next => exact hparts v w hv hw

/-- Whether two values are equal can be found out. -/
theorem equal_ne_unfinished (h : s.IsAcyclic) (hclosed : s.IsClosed) (hv : s.Knows v)
    (hw : s.Knows w) : s.equal v w ≠ .error .unfinished := by
  refine equalWithin_ne_error (P := s.Knows) (fun i hi => ?_)
    (fun _ _ hv hw => equalParts_ne_unfinished h hclosed hv hw) hv hw ?_
  · exact ⟨hi i rfl, h i, fun x hx k hk => hclosed.lt ⟨x, hx, hk⟩⟩
  · exact Nat.lt_succ_of_le ((s.rank_le v).trans (Nat.le_mul_self _))

end Store

end PlcLang
