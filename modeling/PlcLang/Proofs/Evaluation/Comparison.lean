import PlcLang.Evaluation.Operation
import PlcLang.Proofs.Equality
import PlcLang.Proofs.Walk

/-!
# Laws of the comparing operators

What `==`, `<` and `>` give for values of one type and of different ones, and how their results go together.

* `Scalar.IsOrdered`: the values that are in order.
* `Run.compare_ordered`, `Run.compare_of_typeOf_ne`: values of one type and of two types.
* `Run.EqualityLaws`, `Run.OrderLaws`, `Run.TypeLaws`: what a program may rely on.
* `Run.comparison_laws`: these hold.
-/

namespace PlcLang

/-- The scalar has the given type, whose values are in order, and is no decimal that is no number. -/
structure Scalar.IsOrdered (t : Ty) (a : Scalar) : Prop where
  type : a.type? = some t
  /-- Its values are in order. -/
  ordered : t.isOrdered = true
  /-- A decimal is a number. -/
  number : a ≠ .decimal .nan

namespace Scalar

variable {t : Ty} {a b : Scalar}

theorem IsOrdered.isPlain (h : a.IsOrdered t) : a.IsPlain := by
  cases a with
  | double => cases h.type
  | decimal d => exact fun hd => h.number (congrArg decimal hd)
  | _ => trivial

/-- Scalars of one ordered type are in order as their keys are. -/
theorem IsOrdered.less_eq (ha : a.IsOrdered t) (hb : b.IsOrdered t) :
    a.less b = (compare a.key b.key).isLT := by
  rw [Bool.eq_iff_iff, less_iff ha.isPlain hb.isPlain, Ordering.isLT_iff_eq_lt, compare_lt_iff_lt]
  exact and_iff_right (ha.type.trans hb.type.symm)

/-- Scalars of one ordered type are equal if their keys are. -/
theorem IsOrdered.same_eq (ha : a.IsOrdered t) (hb : b.IsOrdered t) :
    a.same b = (compare a.key b.key).isEq := by
  rw [Bool.eq_iff_iff, same_iff, Ordering.isEq_iff_eq_eq, compare_eq_iff_eq]
  exact ⟨fun h => h.2.2.2, fun h => ⟨ha.isPlain, hb.isPlain, ha.type.trans hb.type.symm, h⟩⟩

end Scalar

namespace Run

open Walk

variable {s : State Body String} {l r v w : Value} {a b c : Scalar} {t u : Ty} {op : Operator}

/-- The operator gives true and has no effect. -/
def IsTrue (op : Operator) (l r : Value) (s : State Body String) : Prop :=
  operate op l r s = .ok (.boolean true) s

/-! ## Equality -/

theorem operate_equal {x : Bool} (h : s.store.equal l r = .ok x) :
    operate .equal l r s = .ok (.boolean x) s := by
  have hequal : equal l r s = .ok x s := reading_eq_ok.mpr ⟨h, rfl⟩
  exact bind_of_eq_ok hequal

theorem isTrue_equal_iff : IsTrue .equal l r s ↔ s.store.equal l r = .ok true := by
  refine ⟨fun h => ?_, operate_equal⟩
  obtain ⟨x, _, hreading, hpure⟩ := bind_eq_ok.mp h
  obtain ⟨hx, -⟩ := reading_eq_ok.mp hreading
  obtain ⟨⟨⟩, -⟩ := pure_eq_ok.mp hpure
  exact hx

/-! ## Order -/

theorem typeOf_of_eq_ok {t : Option Ty} (h : s.store.typeOf v = .ok t) : typeOf v s = .ok t s :=
  reading_eq_ok.mpr ⟨h, rfl⟩

/-- Scalars of one ordered type are put in order. -/
theorem compare_ordered (ha : a.IsOrdered t) (hb : b.IsOrdered t) (op : Operator) :
    compare op (.scalar a) (.scalar b) s =
      .ok (.boolean (if op = .less then a.less b else b.less a)) s := by
  have htype {a : Scalar} (ha : a.IsOrdered t) : typeOf (.scalar a) s = .ok (some t) s :=
    typeOf_of_eq_ok (by rw [Store.typeOf, ha.type])
  have hnil : t ≠ .nil := by
    rintro rfl
    cases ha.ordered
  unfold compare
  rw [bind_of_eq_ok (htype ha), bind_of_eq_ok (htype hb)]
  dsimp only
  have hrequire : require (some t = some t ∧ some t ≠ some .nil) (.incomparable (some t) (some t) op.symbol) s =
      .ok () s := require_eq_ok.mpr ⟨by simp [hnil], rfl⟩
  rw [bind_of_eq_ok hrequire, Scalar.unordered_of_isPlain ha.isPlain hb.isPlain]
  rfl

/-- The three operators ask how the keys compare. -/
theorem operate_less (ha : a.IsOrdered t) (hb : b.IsOrdered t) :
    operate .less (.scalar a) (.scalar b) s = .ok (.boolean (Ord.compare a.key b.key).isLT) s := by
  rw [← ha.less_eq hb]
  exact compare_ordered ha hb .less

theorem operate_equal_ordered (ha : a.IsOrdered t) (hb : b.IsOrdered t) :
    operate .equal (.scalar a) (.scalar b) s = .ok (.boolean (Ord.compare a.key b.key).isEq) s := by
  rw [← ha.same_eq hb]
  exact operate_equal (Store.equalParts_scalar ha.type hb.type)

theorem operate_greater (ha : a.IsOrdered t) (hb : b.IsOrdered t) :
    operate .greater (.scalar a) (.scalar b) s = .ok (.boolean (Ord.compare a.key b.key).isGT) s := by
  rw [← Ordering.isLT_swap, ← Std.OrientedOrd.eq_swap, ← hb.less_eq ha]
  exact compare_ordered ha hb .greater

theorem isTrue_less_iff (ha : a.IsOrdered t) (hb : b.IsOrdered t) :
    IsTrue .less (.scalar a) (.scalar b) s ↔ a.key < b.key := by
  rw [IsTrue, operate_less ha hb]
  simp [Ordering.isLT_iff_eq_lt, compare_lt_iff_lt]

theorem isTrue_equal_ordered_iff (ha : a.IsOrdered t) (hb : b.IsOrdered t) :
    IsTrue .equal (.scalar a) (.scalar b) s ↔ a.key = b.key := by
  rw [IsTrue, operate_equal_ordered ha hb]
  simp [Ordering.isEq_iff_eq_eq, compare_eq_iff_eq]

/-- Values of different types are not put in order. -/
theorem compare_of_typeOf_ne {t u : Option Ty} (hl : s.store.typeOf l = .ok t) (hr : s.store.typeOf r = .ok u)
    (h : t ≠ u) (op : Operator) : compare op l r s = .error (.raised (.incomparable t u op.symbol)) s := by
  unfold compare
  rw [bind_of_eq_ok (typeOf_of_eq_ok hl), bind_of_eq_ok (typeOf_of_eq_ok hr)]
  split
  next a b =>
    refine bind_of_eq_error ?_
    rw [decide_eq_false (fun hand => h hand.1)]
    rfl
  next => rfl

/-! ## Laws -/

/-- Equality is an equivalence of the values that contain no list that contains itself, no double and no
decimal that is no number. -/
structure EqualityLaws (s : State Body String) : Prop where
  /-- Two values are equal or not. -/
  decided {v w : Value} : s.store.IsPlain v → s.store.IsPlain w → ∃ x, operate .equal v w s = .ok (.boolean x) s
  /-- A value equals itself. -/
  refl {v : Value} : s.store.IsPlain v → IsTrue .equal v v s
  /-- The sides may be exchanged. -/
  symm {v w : Value} : s.store.IsPlain v → s.store.IsPlain w → IsTrue .equal v w s → IsTrue .equal w v s
  /-- What equals an equal value is equal. -/
  trans {v w x : Value} : s.store.IsPlain v → s.store.IsPlain w → s.store.IsPlain x →
    IsTrue .equal v w s → IsTrue .equal w x s → IsTrue .equal v x s
  /-- Lists are equal if they have as many items, pairwise equal. -/
  lists {i j : ListId} : s.store.IsPlain (.list i) → s.store.IsPlain (.list j) →
    (IsTrue .equal (.list i) (.list j) s ↔
      List.Forall₂ (IsTrue .equal · · s) (s.store.list i).toList (s.store.list j).toList)

/-- The values of an ordered type are in a linear order, up to equality. -/
structure OrderLaws (s : State Body String) : Prop where
  /-- Exactly one of the three operators gives true. -/
  trichotomy {t : Ty} {a b : Scalar} : a.IsOrdered t → b.IsOrdered t → ∃ o : Ordering,
    operate .less (.scalar a) (.scalar b) s = .ok (.boolean o.isLT) s ∧
    operate .equal (.scalar a) (.scalar b) s = .ok (.boolean o.isEq) s ∧
    operate .greater (.scalar a) (.scalar b) s = .ok (.boolean o.isGT) s
  /-- What is less than a lesser value is less. -/
  trans {t : Ty} {a b c : Scalar} : a.IsOrdered t → b.IsOrdered t → c.IsOrdered t →
    IsTrue .less (.scalar a) (.scalar b) s → IsTrue .less (.scalar b) (.scalar c) s →
    IsTrue .less (.scalar a) (.scalar c) s
  /-- Equal values are less than the same values, and the same values are less than they are. -/
  congr {t : Ty} {a a' b b' : Scalar} : a.IsOrdered t → a'.IsOrdered t → b.IsOrdered t → b'.IsOrdered t →
    IsTrue .equal (.scalar a) (.scalar a') s → IsTrue .equal (.scalar b) (.scalar b') s →
    operate .less (.scalar a) (.scalar b) s = operate .less (.scalar a') (.scalar b') s
  /-- A value is greater than those that are less. -/
  converse {t : Ty} {a b : Scalar} : a.IsOrdered t → b.IsOrdered t →
    operate .greater (.scalar a) (.scalar b) s = operate .less (.scalar b) (.scalar a) s

/-- Values of different types are neither equal nor in order; a list has no type. -/
structure TypeLaws (s : State Body String) : Prop where
  /-- They are not equal. -/
  unequal {l r : Value} {t u : Option Ty} : s.store.typeOf l = .ok t → s.store.typeOf r = .ok u → t ≠ u →
    operate .equal l r s = .ok (.boolean false) s
  /-- To put them in order is a fault about types. -/
  incomparable {l r : Value} {t u : Option Ty} {op : Operator} : s.store.typeOf l = .ok t →
    s.store.typeOf r = .ok u → t ≠ u → op = .less ∨ op = .greater →
    ∃ f, operate op l r s = .error (.raised f) s ∧ f = .incomparable t u op.symbol ∧ f.category = .type

theorem equalityLaws (s : State Body String) : EqualityLaws s where
  decided hv hw := by
    obtain ⟨x, hx⟩ := Store.exists_equal hv hw
    exact ⟨x, operate_equal hx⟩
  refl hv := isTrue_equal_iff.mpr (Store.equal_self hv)
  symm _ _ h := isTrue_equal_iff.mpr (Store.equalWithin_symm (isTrue_equal_iff.mp h))
  trans _ _ _ hvw hwx :=
    isTrue_equal_iff.mpr (Store.equalWithin_trans (isTrue_equal_iff.mp hvw) (isTrue_equal_iff.mp hwx))
  lists hi _ := by
    simp only [isTrue_equal_iff]
    exact Store.equal_list_iff hi

theorem orderLaws (s : State Body String) : OrderLaws s where
  trichotomy ha hb := ⟨_, operate_less ha hb, operate_equal_ordered ha hb, operate_greater ha hb⟩
  trans ha hb hc hab hbc := by
    rw [isTrue_less_iff ha hb] at hab
    rw [isTrue_less_iff hb hc] at hbc
    exact (isTrue_less_iff ha hc).mpr (hab.trans hbc)
  congr ha ha' hb hb' haa' hbb' := by
    rw [isTrue_equal_ordered_iff ha ha'] at haa'
    rw [isTrue_equal_ordered_iff hb hb'] at hbb'
    rw [operate_less ha hb, operate_less ha' hb', haa', hbb']
  converse ha hb := (compare_ordered ha hb .greater).trans (compare_ordered hb ha .less).symm

theorem typeLaws (s : State Body String) : TypeLaws s where
  unequal hl hr h := operate_equal (Store.equal_of_typeOf_ne hl hr h)
  incomparable hl hr h hop := by
    refine ⟨_, ?_, rfl, rfl⟩
    rcases hop with rfl | rfl
    · exact compare_of_typeOf_ne hl hr h .less
    · exact compare_of_typeOf_ne hl hr h .greater

/-- **The operators that compare values** obey the laws of equality and order. -/
theorem comparison_laws (s : State Body String) : EqualityLaws s ∧ OrderLaws s ∧ TypeLaws s :=
  ⟨equalityLaws s, orderLaws s, typeLaws s⟩

/-- Lists of lists are equal if `1.50`, `-0.0` and `true` stand where `1.5`, `0.00` and `true` do, while `true`
does not equal `1` and is not put in order with it. -/
theorem comparison_laws_nested :
    let items (c d : Decimal) : Array Value := #[.decimal c, .decimal d, .boolean true]
    let store : Store Body := { lists := #[
      items (.finite false 150 (-2)) (.finite true 0 (-1)), items (.finite false 15 (-1)) (.finite false 0 (-2)),
      #[.list 0, .nil], #[.list 1, .nil]] }
    let s : State Body String := ⟨store, { scope := 0 }, ""⟩
    IsTrue .equal (.list 2) (.list 3) s ∧ operate .equal (.boolean true) (.integer 1) s = .ok (.boolean false) s ∧
      ∃ f, operate .less (.boolean true) (.integer 1) s = .error (.raised f) s ∧ f.category = .type := by
  intro items store s
  obtain ⟨hequality, -, htypes⟩ := comparison_laws s
  have hitems {c d : Decimal} (hc : c ≠ .nan) (hd : d ≠ .nan) : ∀ v ∈ (items c d).toList, store.IsPlain v := by
    rintro v (_ | ⟨_, _ | ⟨_, _ | ⟨_, ⟨⟩⟩⟩⟩)
    · exact .scalar hc
    · exact .scalar hd
    · exact .scalar (a := .boolean true) trivial
  have houter {i : ListId} (hi : store.IsPlain (.list i)) : ∀ v ∈ [Value.list i, .nil], store.IsPlain v := by
    rintro v (_ | ⟨_, _ | ⟨_, ⟨⟩⟩⟩)
    · exact hi
    · exact .scalar (a := .nil) trivial
  have h0 : store.IsPlain (.list 0) := .list (by decide) (hitems nofun nofun)
  have h1 : store.IsPlain (.list 1) := .list (by decide) (hitems nofun nofun)
  have h2 : store.IsPlain (.list 2) := .list (by decide) (houter h0)
  have h3 : store.IsPlain (.list 3) := .list (by decide) (houter h1)
  have hinner : IsTrue .equal (.list 0) (.list 1) s :=
    (hequality.lists h0 h1).mpr (.cons rfl (.cons rfl (.cons rfl .nil)))
  have hboolean : store.typeOf (.boolean true) = .ok (some .boolean) := rfl
  have hinteger : store.typeOf (.integer 1) = .ok (some .integer) := rfl
  have hne : some Ty.boolean ≠ some .integer := by decide
  refine ⟨(hequality.lists h2 h3).mpr (.cons hinner (.cons rfl .nil)), htypes.unequal hboolean hinteger hne, ?_⟩
  obtain ⟨f, hf, -, hcategory⟩ := htypes.incomparable hboolean hinteger hne (.inl rfl)
  exact ⟨f, hf, hcategory⟩

end Run

end PlcLang
