import Mathlib.Data.List.Forall2
import Mathlib.Data.List.Nodup

/-!
# Bindings found by key

A scope keeps its bindings in lists without two entries of the same key: the name of a variable, the
name and arity of a function. It finds them from the front of the list, and the scopes around it are
asked from the inside out.

* `Keyed.find?_eq_some_iff`: what is found is the entry of that key.
* `Keyed.find?_of_forall₂`: it is found in every list that goes along entry by entry.
* `Keyed.findSome?_eq_some_iff`: a search through scopes against a rule that asks one after the other.
-/

namespace PlcLang.Keyed

variable {α β κ ρ : Type}

/-! ## One list -/

section Entries

variable {key : α → κ} {k : κ} {l : List α}

theorem find?_eq_some_iff {p : α → Bool} (hp : ∀ a, p a = true ↔ key a = k) (hkeys : (l.map key).Nodup)
    {a : α} : l.find? p = some a ↔ a ∈ l ∧ key a = k := by
  constructor
  · intro h
    exact ⟨List.mem_of_find?_eq_some h, (hp a).mp (List.find?_some h)⟩
  · rintro ⟨ha, hak⟩
    obtain ⟨b, hb⟩ := Option.isSome_iff_exists.mp (List.find?_isSome.mpr ⟨a, ha, (hp a).mpr hak⟩)
    have hbk : key b = k := (hp b).mp (List.find?_some hb)
    rw [hb, List.inj_on_of_nodup_map hkeys (List.mem_of_find?_eq_some hb) ha (hbk.trans hak.symm)]

end Entries

/-! ## Two lists that go along with each other -/

section Pairs

variable {R : α → β → Prop} {as : List α} {bs : List β} {key : α → κ} {key' : β → κ} {k : κ}
  {p : β → Bool}

theorem map_eq_map_of_forall₂ (h : List.Forall₂ R as bs) (hkey : ∀ a b, R a b → key' b = key a) :
    bs.map key' = as.map key := by
  induction h with
  | nil => rfl
  | cons hab _ ih => rw [List.map_cons, List.map_cons, hkey _ _ hab, ih]

theorem exists_mem_of_forall₂ (h : List.Forall₂ R as bs) {a : α} (ha : a ∈ as) : ∃ b ∈ bs, R a b := by
  induction h with
  | nil => cases ha
  | cons hab _ ih =>
    rcases List.mem_cons.mp ha with rfl | ha
    · exact ⟨_, List.mem_cons_self, hab⟩
    · obtain ⟨b, hb, hab⟩ := ih ha
      exact ⟨b, List.mem_cons_of_mem _ hb, hab⟩

theorem find?_of_forall₂ (hp : ∀ b, p b = true ↔ key' b = k) (h : List.Forall₂ R as bs)
    (hkey : ∀ a b, R a b → key' b = key a) (hkeys : (as.map key).Nodup) {a : α} (ha : a ∈ as)
    (hak : key a = k) : ∃ b, bs.find? p = some b ∧ R a b := by
  obtain ⟨b, hb, hab⟩ := exists_mem_of_forall₂ h ha
  have hkeys' : (bs.map key').Nodup := by rwa [map_eq_map_of_forall₂ h hkey]
  exact ⟨b, (find?_eq_some_iff hp hkeys').mpr ⟨hb, (hkey a b hab).trans hak⟩, hab⟩

theorem find?_eq_none_of_forall₂ (hp : ∀ b, p b = true ↔ key' b = k) (h : List.Forall₂ R as bs)
    (hkey : ∀ a b, R a b → key' b = key a) (hk : ∀ a ∈ as, key a ≠ k) : bs.find? p = none := by
  refine List.find?_eq_none.mpr fun b hb hpb => ?_
  have hmem : k ∈ as.map key := by
    rw [← map_eq_map_of_forall₂ h hkey]
    exact List.mem_map.mpr ⟨b, hb, (hp b).mp hpb⟩
  obtain ⟨a, ha, hak⟩ := List.mem_map.mp hmem
  exact hk a ha hak

end Pairs

/-! ## Scopes inside one another -/

/-- A search finds what a rule gives that takes the answer of the first scope, and goes on with the
others if there is none. -/
theorem findSome?_eq_some_iff {P : List α → Prop} {here : α → Option ρ} {l : List α} {r : ρ}
    (hnil : ¬ P []) (hcons : ∀ a ∈ l, ∀ as, P (a :: as) ↔ here a = some r ∨ here a = none ∧ P as) :
    l.findSome? here = some r ↔ P l := by
  induction l with
  | nil => simpa using hnil
  | cons a as ih =>
    have ih := ih fun b hb => hcons b (List.mem_cons_of_mem _ hb)
    rw [List.findSome?_cons, hcons a List.mem_cons_self, ← ih]
    cases here a with
    | none => simp
    | some q => simp

end PlcLang.Keyed
