import PlcLang.Proofs.Shape
import PlcLang.Proofs.Walk

/-!
# Visits inside visits

A walk over a node visits other nodes. Which ones is told by how it depends on their visits: as no walk
goes on after an early end, it comes to a visit if it would end early whenever that visit did. With this
it can be said at which node a walk fails, without a word about the node that a fault is attached to.

* `Tour`, `Tour.Visits`: walks that depend on how nodes are visited, and the visits that they come to.
* `Relays`: tours that hand on the errors of their visits, with one rule for every way to build a walk.
* `Walker`, `Walker.FailsAt`: visits that consist of visits, and the node at which one fails.
* `Walker.Fails.exists_blames`: a fault is attached to the node at which the visit fails, and to no other.
-/

namespace PlcLang

variable {β ρ α γ δ : Type}

/-! ## Faults without a node -/

/-- If it is a fault, it is attached to no node and has no place. -/
def Stop.IsBare (e : Stop) : Prop := ∀ l, e = .fault l → ∃ f, l = { fault := f }

namespace Stop.IsBare

theorem raised (f : Fault) : (Stop.raised f).IsBare := fun _ h => ⟨f, (Stop.fault.inj h).symm⟩

theorem unfinished : Stop.unfinished.IsBare := by
  intro l h
  cases h

theorem malformed : Stop.malformed.IsBare := by
  intro l h
  cases h

theorem unordered : Stop.unordered.IsBare := by
  intro l h
  cases h

theorem overlong : Stop.overlong.IsBare := by
  intro l h
  cases h

end Stop.IsBare

/-- A fault that is attached to a node already, so that it is handed on as it is. -/
def Stop.marked (f : Fault) : Stop := .fault { fault := f, node := some .missing }

theorem Stop.not_isBare_marked (f : Fault) : ¬ (marked f).IsBare := by
  intro h
  obtain ⟨_, hl⟩ := h _ rfl
  cases hl

/-- The fault attached to a node, with the place of the node. -/
def Fault.attachedTo (f : Fault) (n : Node) : Located Fault := ⟨f, some n, n.place.line, n.place.column⟩

namespace Located

theorem attach_of_some {l : Located Fault} {m : Node} (h : l.node = some m) (n : Node) :
    l.attach n = l := by
  unfold attach
  rw [h]

theorem attach_ne_none {n : Node} (hn : n.isPresent = true) (l : Located Fault) :
    (l.attach n).node ≠ none := by
  unfold attach
  cases hl : l.node with
  | some m => simp [hl]
  | none =>
    cases n with
    | missing => cases hn
    | _ => dsimp only; split <;> simp

end Located

/-! ## Tours -/

/-- Walks that depend on how nodes are visited. -/
abbrev Tour (β ρ γ α : Type) := (Node → Walk β ρ γ) → Walk β ρ α

/-- In the state `s`, with `V` for the visits, the tour comes to the visit of the node `n` in the state
`u`: it would end with any stop with which this visit ended. -/
def Tour.Visits (w : Tour β ρ γ α) (V : Node → Walk β ρ γ) (s : State β ρ) (n : Node) (u : State β ρ) :
    Prop :=
  ∀ V', (∀ m v, (m, v) ≠ (n, u) → V' m v = V m v) → ∀ e t, V' n u = .error e t →
    ∃ t', w V' s = .error e t'

/-- Wherever `V` has a result, `V'` has the same. -/
def Extends (V V' : Node → Walk β ρ γ) : Prop := ∀ n s c t, V n s = .ok c t → V' n s = .ok c t

theorem Extends.of_forall_ne {V V' : Node → Walk β ρ γ} {n : Node} {u t : State β ρ} {e : Stop}
    (hu : V n u = .error e t) (hV : ∀ m v, (m, v) ≠ (n, u) → V' m v = V m v) : Extends V V' := by
  intro m v c t' hok
  rwa [hV m v fun heq => ?_]
  cases heq
  cases hok.symm.trans hu

open Classical in
/-- The visits, but that of `n` in the state `u` ends with the stop `e`. -/
noncomputable def spoiled (V : Node → Walk β ρ γ) (n : Node) (u : State β ρ) (e : Stop) : Node → Walk β ρ γ :=
  fun m v => if (m, v) = (n, u) then .error e v else V m v

section

variable {V : Node → Walk β ρ γ} {m n : Node} {u v : State β ρ} {e e' : Stop}

theorem spoiled_self : spoiled V n u e n u = .error e u := if_pos rfl

theorem spoiled_of_ne (h : (m, v) ≠ (n, u)) : spoiled V n u e m v = V m v := if_neg h

/-- It does not matter for results with which stop the visit ends. -/
theorem spoiled_extends : Extends (spoiled V n u e) (spoiled V n u e') :=
  .of_forall_ne spoiled_self fun m v h => by rw [spoiled_of_ne h, spoiled_of_ne h]

theorem Tour.Visits.spoiled {w : Tour β ρ γ α} {s : State β ρ} (h : w.Visits V s n u) (e : Stop) :
    ∃ t, w (spoiled V n u e) s = .error e t := h _ (fun _ _ => spoiled_of_ne) _ _ spoiled_self

end

/-- A tour ends early with a stop of its own, which satisfies `F`, or because the visit of a node that
satisfies `P` does. It does so whatever the visits would have done to which it does not come. -/
structure Relays (P : Node → Prop) (F : Stop → Prop) (w : Tour β ρ γ α) : Prop where
  /-- The result depends on the visits that have one. -/
  ok : ∀ {V V' s a t}, w V s = .ok a t → Extends V V' → w V' s = .ok a t
  /-- An error that is not its own is that of a visit, and it would have been any other error of it. -/
  error : ∀ {V s e t}, w V s = .error e t → F e ∨ ∃ n u, P n ∧ (∃ t', V n u = .error e t') ∧
    ∀ V', Extends V V' → ∀ e' t', V' n u = .error e' t' → ∃ t'', w V' s = .error e' t''

/-- The walk is not about visits: its errors are bare. -/
def Walk.Bare (x : Walk β ρ α) : Prop := ∀ s e t, x s = .error e t → e.IsBare

namespace Walk.Bare

theorem pure {a : α} : Bare (pure a : Walk β ρ α) := by
  intro s e t he
  cases he

theorem throw {e : Stop} (h : e.IsBare) : Bare (throw e : Walk β ρ α) := by
  intro s e' t he
  cases he
  exact h

theorem raise {f : Fault} : Bare (raise f : Walk β ρ α) := throw (.raised f)

theorem get : Bare (get : Walk β ρ (State β ρ)) := by
  intro s e t he
  cases he

theorem of_ok {x : Walk β ρ α} (h : ∀ s, ∃ a t, x s = .ok a t) : Bare x := by
  intro s e t he
  obtain ⟨a, t', hok⟩ := h s
  cases hok.symm.trans he

theorem bind {x : Walk β ρ γ} {f : γ → Walk β ρ α} (h : Bare x) (hf : ∀ c, Bare (f c)) :
    Bare (x >>= f) := by
  intro s e t he
  cases hx : x s with
  | ok c t' =>
    rw [bind_of_eq_ok hx] at he
    exact hf c _ _ _ he
  | error e' t' =>
    rw [bind_of_eq_error hx] at he
    cases he
    exact h _ _ _ hx

theorem ite {c : Prop} [Decidable c] {x y : Walk β ρ α} (h : Bare x) (k : Bare y) :
    Bare (if c then x else y) := by
  split
  · exact h
  · exact k

theorem lift {x : Except Fault α} : Bare (lift x : Walk β ρ α) := by
  cases x with
  | ok a => exact pure
  | error f => exact raise

theorem require {c : Bool} {f : Fault} : Bare (require c f : Walk β ρ Unit) := ite pure raise

theorem part {o : Option α} : Bare (part o : Walk β ρ α) := by
  cases o with
  | some a => exact pure
  | none => exact throw .malformed

theorem reading {f : Store β → Except Stop α} (h : ∀ {s e}, f s = .error e → e.IsBare) :
    Bare (reading f : Walk β ρ α) := by
  intro s e t he
  unfold Walk.reading at he
  cases hf : f s.store with
  | ok a =>
    rw [hf] at he
    cases he
  | error e' =>
    rw [hf] at he
    cases he
    exact h hf

/-- All operations on scopes. -/
theorem inStore {x : Env → EStateM Fault (Store β) α} : Bare (inStore x : Walk β ρ α) := by
  intro s e t he
  unfold Walk.inStore at he
  dsimp only at he
  split at he
  · cases he
  · cases he
    exact .raised _

end Walk.Bare

namespace Relays

open Walk

variable {P Q : Node → Prop} {F : Stop → Prop} {w w' : Tour β ρ γ α}

theorem pure {a : α} : Relays P F fun _ : Node → Walk β ρ γ => (pure a : Walk β ρ α) :=
  ⟨fun h _ => h, nofun⟩

theorem of_bare {x : Walk β ρ α} (h : Bare x) : Relays P Stop.IsBare fun _ : Node → Walk β ρ γ => x :=
  ⟨fun hx _ => hx, fun hx => .inl (h _ _ _ hx)⟩

/-- The visit of a node. -/
theorem visit {n : Node} (hn : P n) : Relays P F fun V : Node → Walk β ρ γ => V n :=
  ⟨fun h hV => hV _ _ _ _ h, fun {_ s _ t} h => .inr ⟨n, s, hn, ⟨t, h⟩, fun _ _ _ t' h' => ⟨t', h'⟩⟩⟩

theorem mono (h : Relays P F w) (hPQ : ∀ n, P n → Q n) : Relays Q F w where
  ok := h.ok
  error he := (h.error he).imp_right fun ⟨n, u, hn, hrest⟩ => ⟨n, u, hPQ n hn, hrest⟩

theorem bind {x : Tour β ρ γ δ} {k : δ → Tour β ρ γ α} (hx : Relays P F x)
    (hk : ∀ c, Relays P F (k c)) : Relays P F fun V => x V >>= fun c => k c V where
  ok {V V' s a t} h hV := by
    obtain ⟨c, u, hc, ha⟩ := bind_eq_ok.mp h
    exact bind_eq_ok.mpr ⟨c, u, hx.ok hc hV, (hk c).ok ha hV⟩
  error {V s e t} h := by
    cases hc : x V s with
    | error e' t' =>
      rw [bind_of_eq_error hc] at h
      cases h
      refine (hx.error hc).imp_right fun ⟨n, u, hn, hu, hrest⟩ => ⟨n, u, hn, hu, fun V' hV e' t' h' => ?_⟩
      obtain ⟨t'', ht⟩ := hrest V' hV e' t' h'
      exact ⟨t'', bind_of_eq_error ht⟩
    | ok c t' =>
      rw [bind_of_eq_ok hc] at h
      refine ((hk c).error h).imp_right fun ⟨n, u, hn, hu, hrest⟩ =>
        ⟨n, u, hn, hu, fun V' hV e' t' h' => ?_⟩
      -- the first part has come to visits with results only
      obtain ⟨t'', ht⟩ := hrest V' hV e' t' h'
      exact ⟨t'', (bind_of_eq_ok (hx.ok hc hV)).trans ht⟩

/-- A part that is not about visits comes first. -/
theorem bare_bind {x : Walk β ρ δ} {k : δ → Tour β ρ γ α} (hx : Bare x)
    (hk : ∀ c, Relays P Stop.IsBare (k c)) : Relays P Stop.IsBare fun V => x >>= fun c => k c V :=
  (of_bare hx).bind hk

theorem ite {c : Prop} [Decidable c] (h : Relays P F w) (h' : Relays P F w') :
    Relays P F fun V => if c then w V else w' V := by
  split
  · exact h
  · exact h'

/-- The same in another state, which is changed again afterwards. -/
theorem within {g : State β ρ → State β ρ} {f : State β ρ → State β ρ → State β ρ} (h : Relays P F w)
    (hok : ∀ {V s a t}, w V (g s) = .ok a t → w' V s = .ok a (f s t))
    (herror : ∀ {V s e t}, w V (g s) = .error e t → w' V s = .error e (f s t)) : Relays P F w' where
  ok {V V' s a t} ha hV := by
    cases hw : w V (g s) with
    | ok b u =>
      rw [hok hw] at ha
      cases ha
      exact hok (h.ok hw hV)
    | error e u => cases ha.symm.trans (herror hw)
  error {V s e t} he := by
    cases hw : w V (g s) with
    | ok b u => cases he.symm.trans (hok hw)
    | error e' u =>
      rw [herror hw] at he
      cases he
      refine (h.error hw).imp_right fun ⟨n, v, hn, hv, hrest⟩ => ⟨n, v, hn, hv, fun V' hV e' t' h' => ?_⟩
      obtain ⟨t'', ht⟩ := hrest V' hV e' t' h'
      exact ⟨_, herror ht⟩

theorem inChildOf {outer : Env} (h : Relays P F w) : Relays P F fun V => inChildOf outer (w V) :=
  h.within inChildOf_of_eq_ok inChildOf_of_eq_error

theorem inChild (h : Relays P F w) : Relays P F fun V => inChild (w V) :=
  ⟨fun ha hV => h.inChildOf.ok ha hV, fun he => h.inChildOf.error he⟩

/-- If the error is not the tour's own, it is that of a visit to which the tour comes. -/
theorem exists_visits (h : Relays P F w) {V : Node → Walk β ρ γ} {s t : State β ρ} {e : Stop}
    (he : w V s = .error e t) :
    F e ∨ ∃ n u t', P n ∧ w.Visits V s n u ∧ V n u = .error e t' :=
  (h.error he).imp_right fun ⟨n, u, hn, ⟨t', hu⟩, hrest⟩ =>
    ⟨n, u, t', hn, fun V' hV => hrest V' (.of_forall_ne hu hV), hu⟩

end Relays

namespace Tour.Visits

open Walk

variable {x : Tour β ρ γ δ} {k : δ → Tour β ρ γ α} {w w' : Tour β ρ γ α} {V : Node → Walk β ρ γ} {n : Node}
  {s t u u' : State β ρ}

/-- The same in another state. -/
theorem congr (h : w.Visits V t n u) (hw : ∀ V, w' V s = w V t) : w'.Visits V s n u := by
  intro V' hV e t' he
  rw [hw]
  exact h V' hV e t' he

theorem bind_left (h : x.Visits V s n u) : Tour.Visits (fun V => x V >>= fun c => k c V) V s n u := by
  intro V' hV e t' he
  obtain ⟨t'', ht⟩ := h V' hV e t' he
  exact ⟨t'', bind_of_eq_error ht⟩

/-- What comes first has a result, and so it does not come to the visit. -/
theorem bind_right {P : Node → Prop} {F : Stop → Prop} {c : δ} {e : Stop} (hx : Relays P F x)
    (hc : x V s = .ok c t) (h : (k c).Visits V t n u) (hu : V n u = .error e u') :
    Tour.Visits (fun V => x V >>= fun c => k c V) V s n u := by
  intro V' hV e' t' he'
  obtain ⟨t'', ht⟩ := h V' hV e' t' he'
  exact ⟨t'', (Walk.bind_of_eq_ok (hx.ok hc (.of_forall_ne hu hV))).trans ht⟩

/-- The same if what comes first depends on no visits. -/
theorem bind_of_eq_ok {y : Walk β ρ δ} {c : δ} (hc : y s = .ok c t) (h : (k c).Visits V t n u) :
    Tour.Visits (fun V => y >>= fun c => k c V) V s n u := h.congr fun _ => Walk.bind_of_eq_ok hc

theorem inChildOf {outer : Env} (h : w.Visits V (s.openedIn outer) n u) :
    Tour.Visits (fun V => inChildOf outer (w V)) V s n u := by
  intro V' hV e t' he
  obtain ⟨t'', ht⟩ := h V' hV e t' he
  exact ⟨_, inChildOf_of_eq_error ht⟩

end Tour.Visits

/-! ## Walkers -/

/-- Visits that consist of visits. The number bounds how deeply they are nested, if it matters. -/
structure Walker (β ρ γ : Type) where
  visit : Nat → Node → Walk β ρ γ
  /-- What it consists of. -/
  tour : Nat → Node → Tour β ρ γ γ
  visit_eq : ∀ d n, visit d n = Walk.attached n (tour d n (visit (d - 1)))
  /-- The nodes that the visit of a node may come to. -/
  reach : Nat → Node → Node → Prop
  relays : ∀ d n, Relays (reach d n) Stop.IsBare (tour d n)
  /-- What gets less from visit to visit. -/
  rank : Nat → Node → Nat
  rank_lt : ∀ {d n m}, reach d n m → rank (d - 1) m < rank d n
  missing : ∀ d, Walk.Bare (visit d .missing)

namespace Walker

open Walk

variable (W : Walker β ρ γ)

/-- In the state `s`, the visit of the node comes to that of `m` in the state `u`. -/
def Visits (d : Nat) (n : Node) (s : State β ρ) (m : Node) (u : State β ρ) : Prop :=
  (W.tour d n).Visits (W.visit (d - 1)) s m u

/-- The visit of a node in the state `s` ends with a fault. -/
def Fails (d : Nat) (n : Node) (s : State β ρ) (e : Located Fault) : Prop :=
  ∃ t, W.visit d n s = .error (.fault e) t

/-- The visit of a node in the state `s` ends with a fault although all visits to which it comes, of
nodes that are not missing, have results. -/
def Raises (d : Nat) (n : Node) (s : State β ρ) (e : Located Fault) : Prop :=
  W.Fails d n s e ∧
    ∀ m u, m.isPresent = true → W.Visits d n s m u → ∃ c t, W.visit (d - 1) m u = .ok c t

/-- The visit of a node in the state `s` fails at the node `i`, the innermost one that is being visited
then: it raises a fault itself, or it comes to a visit that fails there. -/
inductive FailsAt : Nat → Node → State β ρ → Node → Prop
  | here {d n s e} : W.Raises d n s e → FailsAt d n s n
  | inside {d n s m u i} : m.isPresent = true → W.Visits d n s m u → FailsAt (d - 1) m u i →
      FailsAt d n s i

variable {W} {d : Nat} {n m i : Node} {s u t : State β ρ} {e : Located Fault} {l : Stop}

/-- A tour ends with the error of a visit that it comes to. -/
theorem Visits.exists_eq_error (h : W.Visits d n s m u) (he : W.visit (d - 1) m u = .error l t) :
    ∃ t', W.tour d n (W.visit (d - 1)) s = .error l t' := h _ (fun _ _ _ => rfl) _ _ he

theorem visit_of_tour {l : Stop} (h : W.tour d n (W.visit (d - 1)) s = .error l t) :
    W.visit d n s = .error (l.attach n) t := by
  rw [W.visit_eq]
  exact attached_of_eq_error h

theorem exists_tour (h : W.visit d n s = .error (.fault e) t) :
    ∃ l, W.tour d n (W.visit (d - 1)) s = .error (.fault l) t ∧ e = l.attach n := by
  cases htour : W.tour d n (W.visit (d - 1)) s with
  | ok c t' =>
    rw [W.visit_eq, attached, htour] at h
    cases h
  | error l t' =>
    rw [visit_of_tour htour] at h
    cases l with
    | fault l =>
      cases h
      exact ⟨l, rfl, rfl⟩
    | _ => cases h

/-- Outside a visit, a fault is attached to a node. -/
theorem Fails.node_ne_none (h : W.Fails d n s e) (hn : n.isPresent = true) : e.node ≠ none := by
  obtain ⟨t, ht⟩ := h
  obtain ⟨l, -, rfl⟩ := exists_tour ht
  exact l.attach_ne_none hn

theorem Fails.not_isBare (h : W.Fails d n s e) (hn : n.isPresent = true) : ¬ (Stop.fault e).IsBare := by
  intro hbare
  obtain ⟨f, rfl⟩ := hbare e rfl
  exact h.node_ne_none hn rfl

theorem isPresent_of_not_isBare (h : W.visit d n s = .error l t) (hl : ¬ l.IsBare) :
    n.isPresent = true := by
  cases n with
  | missing => exact absurd (W.missing _ _ _ _ h) hl
  | _ => rfl

/-- The fault of a visit to which another one comes is the fault of both. -/
theorem Visits.fails (h : W.Visits d n s m u) (hm : m.isPresent = true) (hfails : W.Fails (d - 1) m u e) :
    W.Fails d n s e := by
  obtain ⟨k, hk⟩ := Option.ne_none_iff_exists'.mp (hfails.node_ne_none hm)
  obtain ⟨t, ht⟩ := hfails
  obtain ⟨t', ht'⟩ := h.exists_eq_error ht
  refine ⟨t', ?_⟩
  rw [visit_of_tour ht', Stop.attach, Located.attach_of_some hk]

theorem Fails.eq {e' : Located Fault} (h : W.Fails d n s e) (h' : W.Fails d n s e') : e = e' := by
  obtain ⟨t, ht⟩ := h
  obtain ⟨t', ht'⟩ := h'
  cases ht.symm.trans ht'
  rfl

/-- A fault arises in the visit of a node itself, and then it is attached to the node, or in a visit
inside. -/
theorem Fails.here_or_inside (h : W.Fails d n s e) (hn : n.isPresent = true) :
    (W.Raises d n s e ∧ ∃ f t, W.tour d n (W.visit (d - 1)) s = .error (.raised f) t ∧
        e = f.attachedTo n) ∨
      ∃ m u, W.reach d n m ∧ m.isPresent = true ∧ W.Visits d n s m u ∧ W.Fails (d - 1) m u e := by
  obtain ⟨t, ht⟩ := h
  obtain ⟨l, htour, rfl⟩ := exists_tour ht
  by_cases hbare : (Stop.fault l).IsBare
  · obtain ⟨f, rfl⟩ := hbare l rfl
    refine .inl ⟨⟨⟨t, ht⟩, fun m u hm hvisits => ?_⟩, f, t, htour, Located.attach_of_isPresent hn⟩
    cases hmu : W.visit (d - 1) m u with
    | ok c u' => exact ⟨c, u', rfl⟩
    | error l' u' =>
      obtain ⟨t', ht'⟩ := hvisits.exists_eq_error hmu
      cases htour.symm.trans ht'
      exact absurd hbare (Fails.not_isBare ⟨u', hmu⟩ hm)
  · obtain ⟨m, u, t', hreach, hvisits, hmu⟩ := ((W.relays d n).exists_visits htour).resolve_left hbare
    have hm := isPresent_of_not_isBare hmu hbare
    obtain ⟨k, hk⟩ := Option.ne_none_iff_exists'.mp (Fails.node_ne_none ⟨t', hmu⟩ hm)
    exact .inr ⟨m, u, hreach, hm, hvisits, t', by rwa [Located.attach_of_some hk]⟩

/-- **A visit that fails does so at one node.** To this node the fault is attached, and it has its
place. -/
theorem Fails.exists_failsAt (h : W.Fails d n s e) (hn : n.isPresent = true) :
    ∃ i, W.FailsAt d n s i ∧ i.isPresent = true ∧ e = e.fault.attachedTo i := by
  induction hr : W.rank d n using Nat.strongRecOn generalizing d n s with
  | _ r ih =>
    rcases h.here_or_inside hn with ⟨hraises, f, t, -, rfl⟩ | ⟨m, u, hreach, hm, hvisits, hmu⟩
    · exact ⟨n, .here hraises, hn, rfl⟩
    · obtain ⟨i, hi, hrest⟩ := ih _ (hr ▸ W.rank_lt hreach) hmu hm rfl
      exact ⟨i, .inside hm hvisits hi, hrest⟩

/-- Where a fault is raised, no visit inside fails. -/
theorem Raises.not_fails {e' : Located Fault} (h : W.Raises d n s e) (hm : m.isPresent = true)
    (hvisits : W.Visits d n s m u) : ¬ W.Fails (d - 1) m u e' := by
  rintro ⟨t, ht⟩
  obtain ⟨c, t', hok⟩ := h.2 m u hm hvisits
  cases hok.symm.trans ht

/-- A visit that fails at a node fails with a fault that is attached to it. -/
theorem FailsAt.exists_fails (h : W.FailsAt d n s i) (hn : n.isPresent = true) :
    ∃ e, W.Fails d n s e ∧ e.node = some i := by
  induction h with
  | @here d n s e hraises =>
    rcases hraises.1.here_or_inside hn with ⟨-, f, t, -, rfl⟩ | ⟨m, u, -, hm, hvisits, hmu⟩
    · exact ⟨_, hraises.1, rfl⟩
    · exact (hraises.not_fails hm hvisits hmu).elim
  | @inside d n s m u i hm hvisits _ ih =>
    obtain ⟨e, he, hi⟩ := ih hm
    exact ⟨e, hvisits.fails hm he, hi⟩

/-- Where a visit fails, the fault is raised. What passes from every visit to the visits inside it holds
there. -/
theorem FailsAt.exists_raises {I : Nat → Node → State β ρ → Prop} (h : W.FailsAt d n s i)
    (hn : n.isPresent = true) (hfails : W.Fails d n s e)
    (hI : ∀ {d n s m u}, W.Visits d n s m u → I d n s → I (d - 1) m u) (hstart : I d n s) :
    ∃ k u, I k i u ∧ W.Raises k i u e := by
  induction h with
  | here hraises => exact ⟨_, _, hstart, hraises.1.eq hfails ▸ hraises⟩
  | inside hm hvisits hi ih =>
    obtain ⟨e', he', -⟩ := hi.exists_fails hm
    exact ih hm ((hvisits.fails hm he').eq hfails ▸ he') (hI hvisits hstart)

/-- The visit of `n` in the state `s` ends with the fault `e`. It is attached to `m`, the innermost node
that was being visited when it was raised, and it has the place of `m`. -/
structure Blames (W : Walker β ρ γ) (d : Nat) (n : Node) (s : State β ρ) (e : Located Fault) (m : Node) :
    Prop where
  fails : W.Fails d n s e
  /-- It fails at `m` and at no other node. -/
  failsAt_iff (i : Node) : W.FailsAt d n s i ↔ i = m
  node : e.node = some m
  line : e.line = m.place.line
  column : e.column = m.place.column

theorem Blames.isPresent (h : W.Blames d n s e m) : n.isPresent = true := by
  obtain ⟨t, ht⟩ := h.fails
  refine isPresent_of_not_isBare ht fun hbare => ?_
  obtain ⟨f, rfl⟩ := hbare e rfl
  cases h.node

/-- A node that raises a fault blames no visit inside for it. -/
theorem Raises.not_blames (h : W.Raises d n s e) (hvisits : W.Visits d n s m u) :
    ¬ W.Blames (d - 1) m u e i :=
  fun hblames => h.not_fails hblames.isPresent hvisits hblames.fails

/-- A fault of a visit blames one node. -/
theorem Fails.exists_blames (h : W.Fails d n s e) (hn : n.isPresent = true) :
    ∃ m, m.isPresent = true ∧ W.Blames d n s e m := by
  obtain ⟨m, hm, hpresent, he⟩ := h.exists_failsAt hn
  have hnode := congrArg Located.node he
  refine ⟨m, hpresent, h, fun i => ⟨fun hi => ?_, fun hi => hi ▸ hm⟩, hnode,
    congrArg Located.line he, congrArg Located.column he⟩
  obtain ⟨e', he', hi⟩ := hi.exists_fails hn
  rw [he'.eq h] at hi
  exact Option.some.inj (hi.symm.trans hnode)

/-- The visit of a node comes only to nodes that it may come to. -/
theorem Visits.reach (h : W.Visits d n s m u) : W.reach d n m := by
  -- the tour hands on the fault with which the visit is made to end
  obtain ⟨t, ht⟩ := Tour.Visits.spoiled h (.marked .idleExpression)
  obtain ⟨k, v, hreach, ⟨t', hkv⟩, hrest⟩ :=
    ((W.relays d n).error ht).resolve_left (Stop.not_isBare_marked _)
  by_cases hsame : (k, v) = (m, u)
  · cases hsame
    exact hreach
  · -- if it came from another visit, it would stay the same when this one is made to end otherwise
    rw [spoiled_of_ne hsame] at hkv
    obtain ⟨_, h₁⟩ := hrest _ spoiled_extends _ _ ((spoiled_of_ne hsame).trans hkv)
    obtain ⟨_, h₂⟩ := Tour.Visits.spoiled h (.marked .emptyList)
    cases h₁.symm.trans h₂

end Walker

end PlcLang
