import PlcLang.Proofs.Acyclic
import PlcLang.Proofs.Number.Order

/-!
# Equality and order of values

Scalars of one type are equal or in order as their keys are. Values in which no list contains itself are
equal as far as their items are, and equality tells so.

* `Scalar.key`, `Scalar.same_iff`, `Scalar.less_iff`: scalars.
* `Store.IsPlain`: a value that is nested to some depth and has no scalars that equal nothing.
* `Store.equalWithin_eq_true_iff`: one step of a comparison.
* `Store.equalWithin_symm`, `Store.equalWithin_trans`, `Store.equal_self`: an equivalence.
* `Store.exists_equal`: whether plain values are equal is found out.
* `Store.equal_list_iff`: lists.
-/

namespace PlcLang

/-! ## Scalars -/

namespace Scalar

variable {a b c : Scalar}

/-- The scalar is a value of the language, and no decimal that is no number. -/
def IsPlain : Scalar → Prop
  | decimal d => d ≠ .nan
  | double _ => False
  | _ => True

/-- What decides about scalars of one type: a number or a text. -/
def key : Scalar → WithBot (WithTop ℚ) ×ₗ String
  | boolean b => toLex (if b then 1 else 0, "")
  | integer i => toLex (((i : ℚ) : WithTop ℚ), "")
  | decimal d => toLex (d.extended, "")
  | character t | string t => toLex (0, t)
  | _ => toLex (0, "")

theorem IsPlain.exists_type (h : a.IsPlain) : ∃ t, a.type? = some t := by
  cases a with
  | double => cases h
  | _ => exact ⟨_, rfl⟩

/-- Two scalars of one type. -/
inductive SameType : Scalar → Scalar → Prop
  | nil : SameType nil nil
  | boolean (c d) : SameType (boolean c) (boolean d)
  | integer (k l) : SameType (integer k) (integer l)
  | decimal (c d) : SameType (decimal c) (decimal d)
  | character (t u) : SameType (character t) (character u)
  | string (t u) : SameType (string t) (string u)
  | double (x y) : SameType (double x) (double y)

theorem sameType_of_type?_eq (h : a.type? = b.type?) : a.SameType b := by
  cases a <;> cases b <;> first | constructor | cases h

theorem same_of_type?_ne (h : a.type? ≠ b.type?) : a.same b = false := by
  cases a <;> cases b <;> first | rfl | exact absurd rfl h

theorem less_of_type?_ne (h : a.type? ≠ b.type?) : a.less b = false := by
  cases a <;> cases b <;> first | rfl | exact absurd rfl h

/-- **Scalars are equal** if they have the same type and the same key. -/
theorem same_iff : a.same b = true ↔ a.IsPlain ∧ b.IsPlain ∧ a.type? = b.type? ∧ a.key = b.key := by
  by_cases ht : a.type? = b.type?
  · simp only [ht, true_and]
    cases sameType_of_type?_eq ht with
    | decimal => simp [same, IsPlain, key, Decimal.compare?_eq_some_eq_iff]
    | boolean c d => cases c <;> cases d <;> simp [same, IsPlain, key]
    | _ => simp [same, IsPlain, key]
  · simp [same_of_type?_ne ht, ht]

theorem IsPlain.same_self (h : a.IsPlain) : a.same a = true := same_iff.mpr ⟨h, h, rfl, rfl⟩

theorem same_symm (h : a.same b = true) : b.same a = true := by
  obtain ⟨ha, hb, ht, hk⟩ := same_iff.mp h
  exact same_iff.mpr ⟨hb, ha, ht.symm, hk.symm⟩

theorem same_trans (hab : a.same b = true) (hbc : b.same c = true) : a.same c = true := by
  obtain ⟨ha, -, htab, hkab⟩ := same_iff.mp hab
  obtain ⟨-, hc, htbc, hkbc⟩ := same_iff.mp hbc
  exact same_iff.mpr ⟨ha, hc, htab.trans htbc, hkab.trans hkbc⟩

/-- **Scalars are in order** if they have the same type and their keys are in order. -/
theorem less_iff (ha : a.IsPlain) (hb : b.IsPlain) :
    a.less b = true ↔ a.type? = b.type? ∧ a.key < b.key := by
  by_cases ht : a.type? = b.type?
  · simp only [ht, true_and]
    cases sameType_of_type?_eq ht with
    | double => cases ha
    | decimal c d =>
      simp [less, key, Prod.Lex.toLex_lt_toLex, Decimal.compare?_eq ha hb, compare_lt_iff_lt]
    | boolean c d => cases c <;> cases d <;> simp [less, key, Prod.Lex.toLex_lt_toLex]
    | _ => simp [less, key, Prod.Lex.toLex_lt_toLex]
  · simp [less_of_type?_ne ht, ht]

theorem unordered_of_isPlain (ha : a.IsPlain) (hb : b.IsPlain) : a.unordered b = false := by
  cases a <;> cases b <;> try rfl
  next d e =>
    rw [unordered, Decimal.compare?_eq ha hb]
    rfl

end Scalar

namespace Store

open Relation

variable {β : Type} {s : Store β} {i j : ListId} {v w x : Value} {depth : Nat}

/-- The value is a scalar that equals itself, or a list of such values to any depth. -/
inductive IsPlain (s : Store β) : Value → Prop
  | scalar {a : Scalar} : a.IsPlain → s.IsPlain (.scalar a)
  | list {i : ListId} : i < s.lists.size → (∀ v ∈ (s.list i).toList, s.IsPlain v) → s.IsPlain (.list i)

theorem IsPlain.lt (h : s.IsPlain (.list i)) : i < s.lists.size := by
  cases h with
  | list hlt _ => exact hlt

theorem IsPlain.item (h : s.IsPlain (.list i)) (hv : v ∈ (s.list i).toList) : s.IsPlain v := by
  cases h with
  | list _ hitems => exact hitems v hv

/-- No list in a plain value contains itself. -/
theorem IsPlain.not_transGen (h : s.IsPlain v) (hi : v.list? = some i) (hij : ReflTransGen s.Holds i j) :
    ¬ TransGen s.Holds j j := by
  induction h generalizing i j with
  | scalar => cases hi
  | @list k _ _ ih =>
    obtain rfl : k = i := Option.some.inj hi
    -- a cycle at the list itself goes through one of its items
    have hitem {l m : ListId} (hkl : s.Holds k l) (hlm : ReflTransGen s.Holds l m) : ¬ TransGen s.Holds m m := by
      obtain ⟨x, hx, hl⟩ := hkl
      exact ih x hx hl hlm
    intro hcycle
    rcases hij.cases_head with rfl | ⟨l, hkl, hlj⟩
    · obtain ⟨l, hkl, hlk⟩ := TransGen.head'_iff.mp hcycle
      exact hitem hkl hlk hcycle
    · exact hitem hkl hlj hcycle

/-- The items of a plain list are nested less deep. -/
theorem IsPlain.rank_lt (h : s.IsPlain (.list i)) (hv : v ∈ (s.list i).toList) :
    s.rank v < s.rank (.list i) :=
  Store.rank_lt h.lt (h.not_transGen rfl .refl) hv

/-! ## One step -/

/-- Scalars of the language are compared by their contents. -/
theorem equalParts_scalar {a b : Scalar} {t u : Ty} (ha : a.type? = some t) (hb : b.type? = some u) :
    s.equalParts (.scalar a) (.scalar b) = .ok (a.same b) := by
  simp [equalParts, typeOf, ha, hb, bind, Except.bind]

theorem equalParts_eq_true_iff : s.equalParts v w = .ok true ↔
    ∃ a b, v = .scalar a ∧ w = .scalar b ∧ a.same b = true := by
  constructor
  · intro h
    unfold equalParts at h
    split at h
    next => cases h
    next => cases h
    next hv hw =>
      cases htv : s.typeOf v with
      | error => simp [htv, bind, Except.bind] at h
      | ok =>
        cases htw : s.typeOf w with
        | error => simp [htv, htw, bind, Except.bind] at h
        | ok =>
          rw [htv, htw] at h
          obtain ⟨a, _, rfl, -⟩ := (typeOf_cases htv).resolve_right fun ⟨i, hi, _⟩ => hv i hi
          obtain ⟨b, _, rfl, -⟩ := (typeOf_cases htw).resolve_right fun ⟨i, hi, _⟩ => hw i hi
          exact ⟨a, b, rfl, rfl, Except.ok.inj h⟩
  · rintro ⟨a, b, rfl, rfl, hab⟩
    obtain ⟨ha, hb, -⟩ := Scalar.same_iff.mp hab
    obtain ⟨t, ht⟩ := ha.exists_type
    obtain ⟨u, hu⟩ := hb.exists_type
    rw [equalParts_scalar ht hu, hab]

theorem equalWithin_list : s.equalWithin (depth + 1) (.list i) (.list j) =
    if (s.list i).size = (s.list j).size then
      allEqual (s.equalWithin depth) (s.list i).toList (s.list j).toList
    else .ok false := rfl

theorem equalWithin_parts (h : ¬ ∃ i j, v = .list i ∧ w = .list j) :
    s.equalWithin (depth + 1) v w = s.equalParts v w := by
  unfold equalWithin
  split
  next i j => exact absurd ⟨i, j, rfl, rfl⟩ h
  next => rfl

theorem allEqual_eq_true_iff {equal : Value → Value → Except Stop Bool} {ls rs : List Value}
    (hlength : ls.length = rs.length) :
    allEqual equal ls rs = .ok true ↔ List.Forall₂ (fun l r => equal l r = .ok true) ls rs := by
  induction ls generalizing rs with
  | nil =>
    obtain rfl := List.length_eq_zero_iff.mp hlength.symm
    exact ⟨fun _ => .nil, fun _ => rfl⟩
  | cons l ls ih =>
    cases rs with
    | nil => cases hlength
    | cons r rs =>
      rw [List.forall₂_cons, ← ih (Nat.succ.inj hlength), allEqual]
      cases equal l r with
      | error => simp [bind, Except.bind]
      | ok b => cases b <;> simp [bind, Except.bind]

/-- Equal values are scalars, or lists with pairwise equal items. -/
theorem equalWithin_eq_true_iff : s.equalWithin (depth + 1) v w = .ok true ↔
    (∃ a b, v = .scalar a ∧ w = .scalar b ∧ a.same b = true) ∨
    ∃ i j, v = .list i ∧ w = .list j ∧
      List.Forall₂ (fun l r => s.equalWithin depth l r = .ok true) (s.list i).toList (s.list j).toList := by
  by_cases hlists : ∃ i j, v = .list i ∧ w = .list j
  · obtain ⟨i, j, rfl, rfl⟩ := hlists
    have hscalars : ¬ ∃ a b, Value.list i = .scalar a ∧ Value.list j = .scalar b ∧ a.same b = true := nofun
    simp only [hscalars, false_or, Value.list.injEq, ↓existsAndEq, true_and]
    rw [equalWithin_list]
    split
    next hsize => exact allEqual_eq_true_iff hsize
    next hsize => exact ⟨nofun, fun h => absurd h.length_eq hsize⟩
  · rw [equalWithin_parts hlists, equalParts_eq_true_iff]
    exact ⟨.inl, fun h => h.resolve_right fun ⟨i, j, hi, hj, _⟩ => hlists ⟨i, j, hi, hj⟩⟩

/-- Lists may be followed farther. -/
theorem equalWithin_succ (h : s.equalWithin depth v w = .ok true) : s.equalWithin (depth + 1) v w = .ok true := by
  induction depth generalizing v w with
  | zero => cases h
  | succ depth ih =>
    rw [equalWithin_eq_true_iff] at h ⊢
    rcases h with hscalars | ⟨i, j, rfl, rfl, hitems⟩
    · exact .inl hscalars
    · exact .inr ⟨i, j, rfl, rfl, hitems.imp fun _ _ => ih⟩

theorem equalWithin_symm (h : s.equalWithin depth v w = .ok true) : s.equalWithin depth w v = .ok true := by
  induction depth generalizing v w with
  | zero => cases h
  | succ depth ih =>
    rw [equalWithin_eq_true_iff] at h ⊢
    rcases h with ⟨a, b, rfl, rfl, hab⟩ | ⟨i, j, rfl, rfl, hitems⟩
    · exact .inl ⟨b, a, rfl, rfl, Scalar.same_symm hab⟩
    · exact .inr ⟨j, i, rfl, rfl, (hitems.imp fun _ _ => ih).flip⟩

theorem forall₂_trans {R : Value → Value → Prop} {ls ms rs : List Value} (hlm : List.Forall₂ R ls ms)
    (hmr : List.Forall₂ R ms rs) (hR : ∀ l m r, R l m → R m r → R l r) : List.Forall₂ R ls rs := by
  induction hlm generalizing rs with
  | nil => exact hmr
  | cons hl _ ih =>
    cases hmr with
    | cons hr hmr => exact .cons (hR _ _ _ hl hr) (ih hmr)

theorem equalWithin_trans (hvw : s.equalWithin depth v w = .ok true) (hwx : s.equalWithin depth w x = .ok true) :
    s.equalWithin depth v x = .ok true := by
  induction depth generalizing v w x with
  | zero => cases hvw
  | succ depth ih =>
    rw [equalWithin_eq_true_iff] at hvw hwx ⊢
    rcases hvw with ⟨a, b, rfl, rfl, hab⟩ | ⟨i, j, rfl, rfl, hij⟩
    · obtain ⟨_, c, ⟨⟩, rfl, hbc⟩ | ⟨_, _, ⟨⟩, -⟩ := hwx
      exact .inl ⟨a, c, rfl, rfl, Scalar.same_trans hab hbc⟩
    · obtain ⟨_, _, ⟨⟩, -⟩ | ⟨_, k, ⟨⟩, rfl, hjk⟩ := hwx
      exact .inr ⟨i, k, rfl, rfl, forall₂_trans hij hjk fun _ _ _ => ih⟩

/-! ## Plain values -/

/-- Whether plain values are equal is found out. -/
theorem exists_equalWithin (hv : s.IsPlain v) (hw : s.IsPlain w) (hdepth : s.rank v < depth) :
    ∃ b, s.equalWithin depth v w = .ok b := by
  have hparts {e : Stop} (v w : Value) (hv : s.IsPlain v) (hw : s.IsPlain w) : s.equalParts v w ≠ .error e := by
    cases hv with
    | list => exact nofun
    | scalar ha =>
      cases hw with
      | list => exact nofun
      | scalar hb =>
        obtain ⟨t, ht⟩ := ha.exists_type
        obtain ⟨u, hu⟩ := hb.exists_type
        rw [equalParts_scalar ht hu]
        exact nofun
  cases h : s.equalWithin depth v w with
  | ok b => exact ⟨b, rfl⟩
  | error e =>
    refine absurd h (equalWithin_ne_error (fun i hi => ?_) hparts hv hw hdepth)
    exact ⟨hi.lt, hi.not_transGen rfl .refl, fun _ => hi.item⟩

/-- Plain values equal themselves. -/
theorem equalWithin_self (hv : s.IsPlain v) (hdepth : s.rank v < depth) : s.equalWithin depth v v = .ok true := by
  induction depth generalizing v with
  | zero => cases hdepth
  | succ depth ih =>
    rw [equalWithin_eq_true_iff]
    cases hv with
    | @scalar a ha => exact .inl ⟨a, a, rfl, rfl, ha.same_self⟩
    | @list i hi hitems =>
      refine .inr ⟨i, i, rfl, rfl, List.forall₂_same.mpr fun x hx => ih (hitems x hx) ?_⟩
      have hrank := (IsPlain.list hi hitems).rank_lt hx
      omega

/-- It is enough to follow lists as far as they are nested. -/
theorem equalWithin_of_succ (hv : s.IsPlain v) (hdepth : s.rank v < depth)
    (h : s.equalWithin (depth + 1) v w = .ok true) : s.equalWithin depth v w = .ok true := by
  induction depth generalizing v w with
  | zero => cases hdepth
  | succ depth ih =>
    rw [equalWithin_eq_true_iff] at h ⊢
    rcases h with hscalars | ⟨i, j, rfl, rfl, hitems⟩
    · exact .inl hscalars
    · refine .inr ⟨i, j, rfl, rfl, ?_⟩
      have hplain : ∀ x ∈ (s.list i).toList, s.IsPlain x ∧ s.rank x < depth := by
        intro x hx
        have hrank := hv.rank_lt hx
        exact ⟨hv.item hx, by omega⟩
      refine (List.forall₂_and_left _ _ |>.mpr ⟨hplain, hitems⟩).imp ?_
      rintro x y ⟨⟨hx, hrank⟩, hxy⟩
      exact ih hx hrank hxy

/-! ## Equality -/

/-- Equality follows lists as far as they are nested. -/
theorem rank_lt_fuel (v : Value) : s.rank v < s.lists.size * s.lists.size + 1 :=
  Nat.lt_succ_of_le ((s.rank_le v).trans (Nat.le_mul_self _))

/-- **Whether plain values are equal is found out.** -/
theorem exists_equal (hv : s.IsPlain v) (hw : s.IsPlain w) : ∃ b, s.equal v w = .ok b :=
  exists_equalWithin hv hw (rank_lt_fuel v)

/-- A plain value equals itself. -/
theorem equal_self (hv : s.IsPlain v) : s.equal v v = .ok true := equalWithin_self hv (rank_lt_fuel v)

/-- **Lists are equal** if they have as many items, pairwise equal. -/
theorem equal_list_iff (hi : s.IsPlain (.list i)) : s.equal (.list i) (.list j) = .ok true ↔
    List.Forall₂ (fun l r => s.equal l r = .ok true) (s.list i).toList (s.list j).toList := by
  constructor
  · intro h
    obtain ⟨_, _, ⟨⟩, -⟩ | ⟨_, _, ⟨⟩, ⟨⟩, hitems⟩ := equalWithin_eq_true_iff.mp h
    exact hitems.imp fun _ _ => equalWithin_succ
  · intro h
    -- an item is nested less deep than the list, so one step less is enough for it
    refine equalWithin_of_succ hi (rank_lt_fuel _) (equalWithin_eq_true_iff.mpr ?_)
    exact .inr ⟨i, j, rfl, rfl, h⟩

/-- Values of different types are not equal; lists have none. -/
theorem equal_of_typeOf_ne {t u : Option Ty} (hv : s.typeOf v = .ok t) (hw : s.typeOf w = .ok u) (h : t ≠ u) :
    s.equal v w = .ok false := by
  rcases typeOf_cases hv with ⟨a, σ, rfl, ha, rfl⟩ | ⟨i, rfl, rfl⟩
  · rcases typeOf_cases hw with ⟨b, τ, rfl, hb, rfl⟩ | ⟨j, rfl, rfl⟩
    · have hne : a.type? ≠ b.type? := by rwa [ha, hb]
      exact (equalParts_scalar ha hb).trans (congrArg Except.ok (Scalar.same_of_type?_ne hne))
    · rfl
  · rcases typeOf_cases hw with ⟨b, τ, rfl, -⟩ | ⟨j, rfl, rfl⟩
    · rfl
    · exact absurd rfl h

end Store

end PlcLang
