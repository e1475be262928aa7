import Mathlib.Data.List.Nodup
import PlcLang.Evaluation.Operation
import PlcLang.Proofs.Typing.Bindings

/-!
# What the store of a run holds

The scopes of a run are not those of the analysis: every call and every block has its own. A world
says for each scope of the run which variables the typing rules give it, which functions the program's
scope has and of which type the items of each list are. The store of a run holds what its world says.

* `Discipline`: which values a type admits, which stops are allowed, which nodes occur.
* `World`: variables by scope and functions; `World.Grows`: nothing is lost.
* `StoreHolds`, `Sees`, `Stands`: the store, the environment and both together.
* `Stands.lookupVariable`, `Stands.lookupFunction`: a run finds what the rules say.
-/

namespace PlcLang.Run

open Typing

/-! ## Disciplines -/

/-- What a run is asked for. -/
structure Discipline where
  /-- The type admits the value, where the items of the lists have the given types. -/
  holds : List Ty → Ty → Value → Prop
  /-- The run may end so. -/
  fails : Stop → Prop
  /-- The program may have such a node. -/
  allows : Node → Prop

/-! ## Worlds -/

/-- The variables of all scopes of a run, the functions of the program's scope, and the lists. -/
structure World where
  functions : List (Function Unit)
  /-- The variables of each scope. -/
  scopes : List (List Variable)
  /-- The types of the items of all lists. -/
  lists : List Ty

namespace World

/-- The second world has everything that the first one has, except perhaps in one scope. -/
structure GrowsOff (id : ScopeId) (w w' : World) : Prop where
  functions : w'.functions = w.functions
  /-- The scopes that were there have the same variables. -/
  scopes {i : ScopeId} {vs : List Variable} : i ≠ id → w.scopes[i]? = some vs → w'.scopes[i]? = some vs
  /-- The lists that were there have items of the same types. -/
  lists : w.lists <+: w'.lists

/-- The second world has everything that the first one has. -/
structure Grows (w w' : World) : Prop where
  functions : w'.functions = w.functions
  /-- The scopes that were there have the same variables. -/
  scopes {i : ScopeId} {vs : List Variable} : w.scopes[i]? = some vs → w'.scopes[i]? = some vs
  /-- The lists that were there have items of the same types. -/
  lists : w.lists <+: w'.lists

/-- A world with one more scope. -/
def opened (w : World) : World := { w with scopes := w.scopes ++ [[]] }

/-- A world with other variables in one scope. -/
def withScope (w : World) (id : ScopeId) (vs : List Variable) : World :=
  { w with scopes := w.scopes.set id vs }

variable {w w' w'' : World} {id : ScopeId}

theorem Grows.refl (w : World) : w.Grows w := ⟨rfl, fun h => h, List.prefix_rfl⟩

theorem Grows.trans (h : w.Grows w') (k : w'.Grows w'') : w.Grows w'' :=
  ⟨k.functions.trans h.functions, fun hi => k.scopes (h.scopes hi), h.lists.trans k.lists⟩

theorem Grows.off (h : w.Grows w') (id : ScopeId) : w.GrowsOff id w' :=
  ⟨h.functions, fun _ hi => h.scopes hi, h.lists⟩

theorem GrowsOff.trans (h : w.GrowsOff id w') (k : w'.GrowsOff id w'') : w.GrowsOff id w'' :=
  ⟨k.functions.trans h.functions, fun hne hi => k.scopes hne (h.scopes hne hi), h.lists.trans k.lists⟩

theorem GrowsOff.withScope (w : World) (id : ScopeId) (vs : List Variable) :
    w.GrowsOff id (w.withScope id vs) := by
  refine ⟨rfl, fun hne hi => ?_, List.prefix_rfl⟩
  rwa [World.withScope, List.getElem?_set_ne (Ne.symm hne)]

theorem getElem?_opened_iff {i : ScopeId} {vs : List Variable} :
    w.opened.scopes[i]? = some vs ↔
      w.scopes[i]? = some vs ∨ i = w.scopes.length ∧ vs = [] := by
  rw [World.opened]
  rcases Nat.lt_trichotomy i w.scopes.length with hi | rfl | hi
  · rw [List.getElem?_append_left hi]
    exact ⟨.inl, fun h => h.resolve_right fun he => Nat.ne_of_lt hi he.1⟩
  · simp [eq_comm]
  · have hne : i ≠ w.scopes.length := Nat.ne_of_gt hi
    rw [List.getElem?_eq_none (by rw [List.length_append]; exact hi), List.getElem?_eq_none (Nat.le_of_lt hi)]
    simp [hne]

theorem withScope_self {vs : List Variable} (h : w.scopes[id]? = some vs) : w.withScope id vs = w := by
  obtain ⟨hlt, rfl⟩ := List.getElem?_eq_some_iff.mp h
  rw [World.withScope, List.set_getElem_self]

theorem getElem?_withScope {vs vs' : List Variable} (h : w.scopes[id]? = some vs) :
    (w.withScope id vs').scopes[id]? = some vs' :=
  List.getElem?_set_self (List.getElem?_eq_some_iff.mp h).1

/-- What happens in a new scope is of no concern outside. -/
theorem GrowsOff.leaving (h : w.opened.GrowsOff w.scopes.length w') : w.Grows w' := by
  refine ⟨h.functions, fun {i vs} hi => h.scopes ?_ (getElem?_opened_iff.mpr (.inl hi)), h.lists⟩
  exact Nat.ne_of_lt (List.getElem?_eq_some_iff.mp hi).1

end World

section

variable (D : Discipline) (S : Store Unit) (d : Node)

/-! ## Stores -/

/-- A variable of a run is what the typing rules say, and its value has the type. -/
structure VariableHolds (Λ : List Ty) (v u : Variable) : Prop where
  name : u.name = v.name
  mutable : u.mutable = v.mutable
  origin : u.origin = v.origin
  value : D.holds Λ v.type u.value

/-- The last of the statements returns. -/
def EndsInReturn (ss : List Node) : Prop := ∃ init e p, ss = init ++ [.returning e p]

/-- What a function of a run does is what the typing rules know about it. -/
inductive BodyHolds (w : World) (f : Function Unit) : Body → Prop
  | print : f ∈ builtins.scope.functions → BodyHolds w f .print
  | code {n m φ names ss ss' p} : f.body = none →
      Checks S f.returnType
        [⟨n, { «variables» := parameterVariables p names f.parameterTypes }⟩, φ] (n + 1) ss ss' m →
      Recorded S d [⟨n, { «variables» := parameterVariables p names f.parameterTypes }⟩, φ] →
      w.scopes[0]? = some φ.scope.variables → φ.scope.functions <+: w.functions →
      names.length = f.parameterTypes.length → names.Nodup →
      (∀ s ∈ ss', s.Everywhere D.allows) → (EndsInReturn ss' ∨ ∀ Λ, D.holds Λ f.returnType .nil) →
      BodyHolds w f (.code ⟨0, []⟩ names ss' p)

/-- A function of a run is what the typing rules say. -/
structure FunctionHolds (w : World) (f : Function Unit) (g : Function Body) : Prop where
  name : g.name = f.name
  arity : g.arity = f.arity
  origin : g.origin = f.origin
  body : ∃ b, g.body = some b ∧ BodyHolds D S d w f b

/-- The store holds what the world says. -/
structure StoreHolds (w : World) (s : Store Body) : Prop where
  size : s.scopes.size = w.scopes.length
  /-- Each scope has its variables. -/
  scope {i : ScopeId} {vs : List Variable} : w.scopes[i]? = some vs →
      List.Forall₂ (VariableHolds D w.lists) vs (s.scope i).variables
  /-- They have different names. -/
  names {i : ScopeId} {vs : List Variable} : w.scopes[i]? = some vs → (vs.map (·.name)).Nodup
  /-- The program's scope has the functions. -/
  functions : List.Forall₂ (FunctionHolds D S d w) w.functions (s.scope 0).functions
  /-- They differ in their names or in their numbers of parameters. -/
  keys : (w.functions.map fun f => (f.name, f.arity)).Nodup
  /-- Other scopes have no functions. -/
  inner {i : ScopeId} : i ≠ 0 → (s.scope i).functions = []
  /-- The items of lists have their types. -/
  lists : List.Forall₂ (fun τ items => ∀ v ∈ items, D.holds w.lists τ v) w.lists s.lists.toList

/-! ## Environments -/

/-- The visible scopes of a run have what the context says. -/
inductive Sees (w : World) : List ScopeId → Context → Prop
  | program {φ} : w.scopes[0]? = some φ.scope.variables → φ.scope.functions <+: w.functions →
      Sees w [0] [φ]
  | inner {id ids φ Γ} : id ≠ 0 → id ∉ ids → w.scopes[id]? = some φ.scope.variables →
      φ.scope.functions = [] → Sees w ids Γ → Sees w (id :: ids) (φ :: Γ)

/-- A state of a run in which the context is visible. -/
structure Stands (w : World) (s : State Body String) (Γ : Context) : Prop where
  store : StoreHolds D S d w s.store
  /-- The environment shows what the context says. -/
  sees : Sees w s.env.visible Γ
  /-- The table has the context. -/
  recorded : Recorded S d Γ

end

variable {D : Discipline} {S : Store Unit} {d : Node} {w w' : World} {Γ : Context} {φ : Frame}
  {Λ : List Ty}

/-! ## Growing worlds -/

theorem BodyHolds.grow {f : Function Unit} {b : Body} (h : BodyHolds D S d w f b)
    (hfunctions : w.functions <+: w'.functions)
    (hscope : ∀ vs, w.scopes[0]? = some vs → w'.scopes[0]? = some vs) : BodyHolds D S d w' f b := by
  cases h with
  | print hf => exact .print hf
  | code hf hc hr hvs hfs hlength hnodup hall hend =>
    exact .code hf hc hr (hscope _ hvs) (hfs.trans hfunctions) hlength hnodup hall hend

theorem FunctionHolds.grow {f : Function Unit} {g : Function Body} (h : FunctionHolds D S d w f g)
    (hfunctions : w.functions <+: w'.functions)
    (hscope : ∀ vs, w.scopes[0]? = some vs → w'.scopes[0]? = some vs) :
    FunctionHolds D S d w' f g := by
  obtain ⟨b, hb, hbody⟩ := h.body
  exact ⟨h.name, h.arity, h.origin, b, hb, hbody.grow hfunctions hscope⟩

theorem Sees.grow {ids : List ScopeId} (h : Sees w ids Γ) (hw : w.Grows w') : Sees w' ids Γ := by
  induction h with
  | program hvs hfs => exact .program (hw.scopes hvs) (hw.functions ▸ hfs)
  | inner hne hid hvs hfs _ ih => exact .inner hne hid (hw.scopes hvs) hfs ih

/-- Scopes that do not change may grow. -/
theorem Sees.growOff {ids : List ScopeId} {id : ScopeId} (h : Sees w ids Γ) (hid : id ∉ ids)
    (hw : w.GrowsOff id w') : Sees w' ids Γ := by
  induction h with
  | program hvs hfs =>
    exact .program (hw.scopes (fun he => hid (by simp [he])) hvs) (hw.functions ▸ hfs)
  | inner hne hid' hvs hfs _ ih =>
    obtain ⟨hne', hids⟩ := not_or.mp (List.mem_cons.not.mp hid)
    exact .inner hne hid' (hw.scopes (Ne.symm hne') hvs) hfs (ih hids)

theorem Sees.ne_nil {ids : List ScopeId} (h : Sees w ids Γ) : Γ ≠ [] := by
  cases h <;> exact List.cons_ne_nil _ _

theorem Sees.lt {ids : List ScopeId} (h : Sees w ids Γ) : ∀ id ∈ ids, id < w.scopes.length := by
  induction h with
  | program hvs _ => exact List.forall_mem_singleton.mpr (List.getElem?_eq_some_iff.mp hvs).1
  | inner _ _ hvs _ _ ih => exact List.forall_mem_cons.mpr ⟨(List.getElem?_eq_some_iff.mp hvs).1, ih⟩

/-! ## Lookups -/

theorem variableNamed?_of_forall₂ {vs us : List Variable} (h : List.Forall₂ (VariableHolds D Λ) vs us)
    (hnames : (vs.map (·.name)).Nodup) {v : Variable} (hv : v ∈ vs) :
    ∃ u, us.find? (·.name = v.name) = some u ∧ VariableHolds D Λ v u :=
  Keyed.find?_of_forall₂ (by simp) h (fun _ _ hu => hu.name) hnames hv rfl

theorem variableNamed?_eq_none_of_forall₂ {vs us : List Variable} {name : Name}
    (h : List.Forall₂ (VariableHolds D Λ) vs us) (hvs : ∀ v ∈ vs, v.name ≠ name) :
    us.find? (·.name = name) = none :=
  Keyed.find?_eq_none_of_forall₂ (by simp) h (fun _ _ hu => hu.name) hvs

theorem FunctionHolds.key {f : Function Unit} {g : Function Body} (h : FunctionHolds D S d w f g) :
    (g.name, g.arity) = (f.name, f.arity) :=
  congrArg₂ Prod.mk h.name h.arity

theorem functionNamed?_of_forall₂ {fs : List (Function Unit)} {gs : List (Function Body)}
    (h : List.Forall₂ (FunctionHolds D S d w) fs gs)
    (hkeys : (fs.map fun f => (f.name, f.arity)).Nodup) {f : Function Unit} (hf : f ∈ fs) :
    ∃ g, (gs.find? fun g => g.name = f.name && g.arity = f.arity) = some g ∧
      FunctionHolds D S d w f g :=
  Keyed.find?_of_forall₂ (by simp) h (fun _ _ hg => hg.key) hkeys hf rfl

theorem functionNamed?_eq_none_of_forall₂ {fs : List (Function Unit)} {gs : List (Function Body)}
    {name : Name} {arity : Nat} (h : List.Forall₂ (FunctionHolds D S d w) fs gs)
    (hfs : ∀ f ∈ fs, ¬ (f.name = name ∧ f.arity = arity)) :
    (gs.find? fun g => g.name = name && g.arity = arity) = none :=
  Keyed.find?_eq_none_of_forall₂ (by simp) h (fun _ _ hg => hg.key) fun f hf he =>
    hfs f hf (Prod.mk.inj he)

/-- The variable that a name means is found, in a scope whose variables are known. -/
theorem Sees.findVariable? {s : Store Body} {ids : List ScopeId} {name : Name} {ref : VariableRef}
    {v : Variable} (h : Sees w ids Γ) (hs : StoreHolds D S d w s)
    (hv : SeesVariable name Γ ref v) :
    ∃ id vs u, (ids.findSome? fun id =>
        ((s.scope id).variableNamed? name).map fun u => ((⟨id, name⟩ : VariableRef), u)) =
          some (⟨id, name⟩, u) ∧
      w.scopes[id]? = some vs ∧ v ∈ vs ∧ v.name = name ∧ VariableHolds D w.lists v u := by
  induction h with
  | @program φ hvs _ =>
    cases hv with
    | here hmem hname =>
      obtain ⟨u, hu, hholds⟩ := variableNamed?_of_forall₂ (hs.scope hvs) (hs.names hvs) hmem
      rw [hname] at hu
      have hu : (s.scope 0).variableNamed? name = some u := hu
      exact ⟨0, _, u, by simp [hu], hvs, hmem, hname, hholds⟩
    | outside _ hv => cases hv
  | @inner id ids φ Γ _ _ hvs _ _ ih =>
    cases hv with
    | here hmem hname =>
      obtain ⟨u, hu, hholds⟩ := variableNamed?_of_forall₂ (hs.scope hvs) (hs.names hvs) hmem
      rw [hname] at hu
      have hu : (s.scope id).variableNamed? name = some u := hu
      exact ⟨id, _, u, by simp [hu], hvs, hmem, hname, hholds⟩
    | outside hlacks hv =>
      have hnone : (s.scope id).variableNamed? name = none :=
        variableNamed?_eq_none_of_forall₂ (hs.scope hvs) hlacks
      obtain ⟨id', vs, u, hfind, hrest⟩ := ih hv
      exact ⟨id', vs, u, by rw [List.findSome?_cons, hnone]; exact hfind, hrest⟩

/-- The function that a name means is found. -/
theorem Sees.findFunction? {s : Store Body} {ids : List ScopeId} {name : Name} {arity : Nat}
    {ref : FunctionRef} {f : Function Unit} (h : Sees w ids Γ) (hs : StoreHolds D S d w s)
    (hf : SeesFunction name arity Γ ref f) :
    ∃ id g, (ids.findSome? fun id =>
        ((s.scope id).functionNamed? name arity).map fun g =>
          ((⟨id, name, arity⟩ : FunctionRef), g)) = some (⟨id, name, arity⟩, g) ∧
      f ∈ w.functions ∧ FunctionHolds D S d w f g := by
  induction h with
  | @program φ _ hfs =>
    cases hf with
    | here hmem hname harity =>
      have hmem := hfs.subset hmem
      obtain ⟨g, hg, hholds⟩ := functionNamed?_of_forall₂ hs.functions hs.keys hmem
      rw [hname, harity] at hg
      have hg : (s.scope 0).functionNamed? name arity = some g := hg
      exact ⟨0, g, by simp [hg], hmem, hholds⟩
    | outside _ hf => cases hf
  | @inner id ids φ Γ hne _ _ hfs _ ih =>
    cases hf with
    | here hmem _ _ =>
      rw [hfs] at hmem
      cases hmem
    | outside _ hf =>
      have hnone : (s.scope id).functionNamed? name arity = none := by
        rw [Scope.functionNamed?, hs.inner hne]
        rfl
      obtain ⟨id', g, hfind, hrest⟩ := ih hf
      exact ⟨id', g, by rw [List.findSome?_cons, hnone]; exact hfind, hrest⟩

/-! ## Stores that change -/

variable {s : Store Body} {st st' : State Body String}

/-- Lists may change, and there may be new ones. -/
theorem StoreHolds.withLists {s' : Store Body} (h : StoreHolds D S d w s)
    (hscopes : s'.scopes = s.scopes)
    (hmono : ∀ τ v, D.holds w.lists τ v → D.holds Λ τ v)
    (hlists : List.Forall₂ (fun τ items => ∀ v ∈ items, D.holds Λ τ v) Λ s'.lists.toList) :
    StoreHolds D S d { w with lists := Λ } s' := by
  have hscope (i : ScopeId) : s'.scope i = s.scope i := by rw [Store.scope, hscopes]; rfl
  refine ⟨by rw [hscopes, h.size], fun hi => ?_, h.names, ?_, h.keys, fun hi => ?_, hlists⟩
  · rw [hscope]
    exact (h.scope hi).imp fun _ _ hu => ⟨hu.name, hu.mutable, hu.origin, hmono _ _ hu.value⟩
  · rw [hscope]
    exact h.functions.imp fun _ _ hf => hf.grow List.prefix_rfl fun _ hvs => hvs
  · rw [hscope]
    exact h.inner hi

/-- The items of a list have its type. -/
theorem StoreHolds.item (h : StoreHolds D S d w s) {id : ListId} {τ : Ty} {v : Value}
    (hid : w.lists[id]? = some τ) (hv : v ∈ s.list id) : D.holds w.lists τ v := by
  obtain ⟨hlt, rfl⟩ := List.getElem?_eq_some_iff.mp hid
  have hlt' : id < s.lists.size := by
    rwa [← Array.length_toList, ← h.lists.length_eq]
  refine h.lists.get hlt hlt' v ?_
  rw [Store.list, Array.getD_eq_getD_getElem?, Array.getElem?_eq_getElem hlt'] at hv
  simpa using hv

/-- An item is replaced by a value of the type of its list. -/
theorem StoreHolds.setItem (h : StoreHolds D S d w s) {id : ListId} {index : Nat} {x : Value}
    (hx : ∀ τ, w.lists[id]? = some τ → D.holds w.lists τ x) :
    StoreHolds D S d w (s.setItem id index x) := by
  refine h.withLists rfl (fun _ _ hv => hv) ?_
  rw [List.forall₂_iff_get]
  have hsize : (s.setItem id index x).lists.size = s.lists.size := by simp [Store.setItem]
  refine ⟨by simpa [hsize] using h.lists.length_eq, fun i hi hi' v hv => ?_⟩
  simp only [List.get_eq_getElem, Array.getElem_toList] at hv ⊢
  have hat : w.lists[i]? = some w.lists[i] := List.getElem?_eq_getElem hi
  have hold : ∀ v ∈ s.list i, D.holds w.lists w.lists[i] v := fun v hv => h.item hat hv
  simp only [Store.setItem, Array.getElem_modify] at hv
  have hlist : s.list i = s.lists[i] := by
    rw [Store.list, Array.getD_eq_getD_getElem?, Array.getElem?_eq_getElem]
    rfl
  split at hv
  next he =>
    rcases Array.mem_or_eq_of_mem_setIfInBounds hv with hv | rfl
    · exact hold v (hlist ▸ hv)
    · exact hx _ (he ▸ hat)
  next => exact hold v (hlist ▸ hv)

/-- A new list has items of its type. -/
theorem StoreHolds.newList (h : StoreHolds D S d w s) {τ : Ty} {items : Array Value}
    (hmono : ∀ σ v, D.holds w.lists σ v → D.holds (w.lists ++ [τ]) σ v)
    (hitems : ∀ v ∈ items, D.holds w.lists τ v) :
    StoreHolds D S d { w with lists := w.lists ++ [τ] } (s.newList items).2 := by
  refine h.withLists rfl hmono ?_
  rw [Store.newList, Array.toList_push]
  exact List.rel_append (h.lists.imp fun _ _ hold v hv => hmono _ v (hold v hv))
    (.cons (fun v hv => hmono _ v (hitems v hv)) .nil)

/-- A new scope is empty. -/
theorem StoreHolds.opened (h : StoreHolds D S d w s) (env : Env) :
    StoreHolds D S d w.opened (s.child env).2 := by
  refine ⟨?_, fun {i vs} hi => ?_, fun {i vs} hi => ?_, ?_, h.keys, fun hi => ?_, h.lists⟩
  · rw [Store.size_child, h.size, World.opened, List.length_append]
    rfl
  · rw [Store.scope_child_eq]
    rcases World.getElem?_opened_iff.mp hi with hi | ⟨rfl, rfl⟩
    · exact h.scope hi
    · rw [← h.size, Store.scope_of_ge (Nat.le_refl _)]
      exact .nil
  · rcases World.getElem?_opened_iff.mp hi with hi | ⟨rfl, rfl⟩
    · exact h.names hi
    · exact List.nodup_nil
  · rw [Store.scope_child_eq]
    exact List.Forall₂.imp (fun f g hg => hg.grow List.prefix_rfl fun vs hvs =>
      World.getElem?_opened_iff.mpr (.inl hvs)) h.functions
  · rw [Store.scope_child_eq]
    exact h.inner hi

/-- One scope changes its variables. -/
theorem StoreHolds.modifyScope (h : StoreHolds D S d w s) {id : ScopeId} {vs vs' : List Variable}
    {f : Scope Body → Scope Body} (hid : w.scopes[id]? = some vs)
    (hfunctions : ∀ sc, (f sc).functions = sc.functions)
    (hholds : List.Forall₂ (VariableHolds D w.lists) vs' (f (s.scope id)).variables)
    (hnames : (vs'.map (·.name)).Nodup)
    (hbodies : ∀ g ∈ w.functions, ∀ b, BodyHolds D S d w g b →
      BodyHolds D S d (w.withScope id vs') g b) :
    StoreHolds D S d (w.withScope id vs') (s.modifyScope id f) := by
  have hlt : id < w.scopes.length := (List.getElem?_eq_some_iff.mp hid).1
  have hscope (i : ScopeId) : (s.modifyScope id f).scope i =
      if i = id then f (s.scope i) else s.scope i := by
    split
    next he => rw [he, Store.scope_modifyScope (h.size ▸ hlt)]
    next he => exact Store.scope_modifyScope_of_ne he
  have hfunctions' (i : ScopeId) : ((s.modifyScope id f).scope i).functions =
      (s.scope i).functions := by
    rw [hscope]
    split
    · exact hfunctions _
    · rfl
  refine ⟨?_, fun {i us} hi => ?_, fun {i us} hi => ?_, ?_, h.keys, fun hi => ?_, h.lists⟩
  · rw [Store.size_modifyScope, h.size, World.withScope, List.length_set]
  · rw [hscope]
    split
    next he =>
      rw [he, World.withScope, List.getElem?_set_self hlt] at hi
      rw [he, ← Option.some.inj hi]
      exact hholds
    next he =>
      rw [World.withScope, List.getElem?_set_ne (Ne.symm he)] at hi
      exact h.scope hi
  · by_cases he : i = id
    · rw [he, World.withScope, List.getElem?_set_self hlt] at hi
      rw [← Option.some.inj hi]
      exact hnames
    · rw [World.withScope, List.getElem?_set_ne (Ne.symm he)] at hi
      exact h.names hi
  · rw [hfunctions']
    have hmem : List.Forall₂ (fun g b => g ∈ w.functions ∧ FunctionHolds D S d w g b) w.functions
        (s.scope 0).functions := (List.forall₂_and_left _ _).mpr ⟨fun g hg => hg, h.functions⟩
    refine List.Forall₂.imp (fun g b ⟨hg, hgb⟩ => ?_) hmem
    obtain ⟨body, hbody, hholds⟩ := hgb.body
    exact ⟨hgb.name, hgb.arity, hgb.origin, body, hbody, hbodies g hg body hholds⟩
  · rw [hfunctions']
    exact h.inner hi

/-- A variable gets a value of its type. -/
theorem StoreHolds.setVariable (h : StoreHolds D S d w s) {id : ScopeId} {vs : List Variable}
    {v : Variable} {x : Value} (hid : w.scopes[id]? = some vs) (hv : v ∈ vs)
    (hx : D.holds w.lists v.type x) : StoreHolds D S d w (s.setVariable ⟨id, v.name⟩ x) := by
  have hassigned : List.Forall₂ (VariableHolds D w.lists) vs ((s.scope id).variables.map fun u =>
      if u.name = v.name then { u with value := x } else u) := by
    have hmem : List.Forall₂ (fun v u => v ∈ vs ∧ VariableHolds D w.lists v u) vs
        (s.scope id).variables :=
      (List.forall₂_and_left _ _).mpr ⟨fun v hv => hv, h.scope hid⟩
    refine List.forall₂_map_right_iff.mpr (List.Forall₂.imp (fun v' u ⟨hv', hu⟩ => ?_) hmem)
    split
    next hname =>
      obtain rfl : v' = v :=
        List.inj_on_of_nodup_map (h.names hid) hv' hv (hu.name.symm.trans hname)
      exact ⟨hu.name, hu.mutable, hu.origin, hx⟩
    next => exact hu
  have hmodify : StoreHolds D S d (w.withScope id vs) (s.setVariable ⟨id, v.name⟩ x) :=
    h.modifyScope hid (fun _ => rfl) hassigned (h.names hid) fun _ _ _ hb => by
      rwa [World.withScope_self hid]
  rwa [World.withScope_self hid] at hmodify

/-! ## States that change -/

theorem Stands.grow (h : Stands D S d w st Γ) (hw : w.Grows w') (hs : StoreHolds D S d w' st'.store)
    (henv : st'.env = st.env) : Stands D S d w' st' Γ :=
  ⟨hs, henv ▸ h.sees.grow hw, h.recorded⟩

/-- A new scope inside visible ones. -/
theorem Stands.openedIn (hs : StoreHolds D S d w st.store) (env : Env)
    (hsees : Sees w env.visible Γ) (hr : Recorded S d Γ) (n : ScopeId) :
    Stands D S d w.opened (st.openedIn env) (⟨n, {}⟩ :: Γ) := by
  refine ⟨hs.opened env, ?_, .cons (.empty n) hr⟩
  change Sees w.opened (st.store.scopes.size :: env.visible) _
  have hlt := hsees.lt
  have hgrows : w.Grows w.opened :=
    ⟨rfl, fun hi => World.getElem?_opened_iff.mpr (.inl hi), List.prefix_rfl⟩
  have hpos : 0 < w.scopes.length :=
    Nat.lt_of_le_of_lt (Nat.zero_le _) (hlt env.scope List.mem_cons_self)
  rw [hs.size]
  refine .inner (Nat.ne_of_gt hpos) (fun hmem => Nat.lt_irrefl _ (hlt _ hmem)) ?_ rfl
    (hsees.grow hgrows)
  exact World.getElem?_opened_iff.mpr (.inr ⟨rfl, rfl⟩)

theorem Stands.opened (h : Stands D S d w st Γ) (n : ScopeId) :
    Stands D S d w.opened st.opened (⟨n, {}⟩ :: Γ) := Stands.openedIn h.store st.env h.sees h.recorded n

/-- Whoever leaves a scope sees the scopes that were visible before. -/
theorem Stands.leaving (h : Stands D S d w st Γ) (hw : w.Grows w')
    (hs : StoreHolds D S d w' st'.store) : Stands D S d w' (st'.leaving st.env) Γ :=
  ⟨hs, h.sees.grow hw, h.recorded⟩

/-- The active scope is the first one of the context, and may change on its own. -/
theorem Sees.active {env : Env} (h : Sees w env.visible (φ :: Γ)) :
    w.scopes[env.scope]? = some φ.scope.variables ∧ (Γ ≠ [] → env.scope ≠ 0) ∧
      ∀ {ψ : Frame} {w'}, ψ.scope.functions = φ.scope.functions → w.GrowsOff env.scope w' →
        w'.scopes[env.scope]? = some ψ.scope.variables → Sees w' env.visible (ψ :: Γ) := by
  obtain ⟨id, ids⟩ := env
  unfold Env.visible at h ⊢
  dsimp only at h ⊢
  cases h with
  | program hvs hfs =>
    exact ⟨hvs, fun hne => absurd rfl hne, fun hψ hw hvs' => .program hvs' (hψ ▸ hw.functions ▸ hfs)⟩
  | inner hne hnot hvs hfs hsees =>
    exact ⟨hvs, fun _ => hne, fun hψ hw hvs' =>
      .inner hne hnot hvs' (hψ.trans hfs) (hsees.growOff hnot hw)⟩

/-- What a function does is not changed by changes of other scopes than the program's, and those of
the program's scope come before all functions that are not built in. -/
theorem BodyHolds.withScope {id : ScopeId} {vs : List Variable} {f : Function Unit} {b : Body}
    (h : BodyHolds D S d w f b) (hid : id ≠ 0 ∨ f.body ≠ none) :
    BodyHolds D S d (w.withScope id vs) f b := by
  rcases hid with hid | hf
  · exact h.grow List.prefix_rfl fun _ hvs => (World.GrowsOff.withScope w id vs).scopes hid.symm hvs
  · cases h with
    | print hf => exact .print hf
    | code hnone => exact absurd hnone hf

/-- The active scope gets a variable. -/
theorem Stands.withVariable (h : Stands D S d w st (φ :: Γ)) {v u : Variable}
    (hu : VariableHolds D w.lists v u) (hlacks : φ.LacksVariable v.name)
    (hr : (φ.withVariable v).RecordedIn S d)
    (hbodies : Γ ≠ [] ∨ ∀ f ∈ w.functions, f.body ≠ none) :
    ∃ w', w.GrowsOff st.env.scope w' ∧
      Stands D S d w' (st.withVariable u) (φ.withVariable v :: Γ) := by
  obtain ⟨hid, hne, hsees⟩ := h.sees.active
  have hgrows := World.GrowsOff.withScope w st.env.scope (φ.withVariable v).scope.variables
  refine ⟨_, hgrows, ?_, hsees rfl hgrows (World.getElem?_withScope hid),
    .cons hr fun ψ hψ => h.recorded ψ (List.mem_cons_of_mem _ hψ)⟩
  refine h.store.modifyScope hid (fun _ => rfl) ?_ ?_ fun f hf b hb => hb.withScope ?_
  · exact List.rel_append (h.store.scope hid) (.cons hu .nil)
  · have hnames := h.store.names hid
    simp only [Frame.withVariable, List.map_append, List.map_cons, List.map_nil]
    refine List.nodup_append.mpr ⟨hnames, List.nodup_singleton _, ?_⟩
    rintro a ha b hb rfl
    obtain ⟨v', hv', rfl⟩ := List.mem_map.mp ha
    exact hlacks v' hv' (List.mem_singleton.mp hb)
  · exact hbodies.imp hne fun h => h f hf

/-- If only one scope is visible, it is the program's. -/
theorem Sees.program_eq {env : Env} (h : Sees w env.visible [φ]) : env = ⟨0, []⟩ := by
  obtain ⟨id, ids⟩ := env
  unfold Env.visible at h
  dsimp only at h
  cases h with
  | program => rfl
  | inner _ _ _ _ h => exact absurd rfl h.ne_nil

/-- The program's scope gets a function. -/
theorem Stands.withFunction (h : Stands D S d w st [φ]) {f : Function Unit} {g : Function Body}
    (hfunctions : w.functions = φ.scope.functions) (hlacks : φ.LacksFunction f.name f.arity)
    (hg : FunctionHolds D S d { w with functions := w.functions ++ [f] } f g)
    (hr : (φ.withFunction f).RecordedIn S d) :
    Stands D S d { w with functions := w.functions ++ [f] } (st.withFunction g)
      [φ.withFunction f] := by
  have henv := h.sees.program_eq
  obtain ⟨hid, -, -⟩ := h.sees.active
  have hlt : 0 < st.store.scopes.size := by
    rw [h.store.size]
    exact (List.getElem?_eq_some_iff.mp (henv ▸ hid)).1
  have hzero : (st.withFunction g).store.scope 0 =
      { st.store.scope 0 with functions := (st.store.scope 0).functions ++ [g] } := by
    rw [State.withFunction, henv, Store.scope_modifyScope hlt]
  have hother {i : ScopeId} (hi : i ≠ 0) :
      (st.withFunction g).store.scope i = st.store.scope i := by
    rw [State.withFunction, henv, Store.scope_modifyScope_of_ne hi]
  have hvariables (i : ScopeId) :
      ((st.withFunction g).store.scope i).variables = (st.store.scope i).variables := by
    by_cases hi : i = 0
    · rw [hi, hzero]
    · rw [hother hi]
  refine ⟨⟨?_, fun {i vs} hi => ?_, h.store.names, ?_, ?_, fun {i} hi => ?_, h.store.lists⟩, ?_,
    .cons hr (List.forall_mem_nil _)⟩
  · rw [State.withFunction, Store.size_modifyScope, h.store.size]
  · rw [hvariables]
    exact h.store.scope hi
  · rw [hzero]
    refine List.rel_append ?_ (.cons hg .nil)
    exact List.Forall₂.imp (fun _ _ hf => hf.grow (List.prefix_append _ _) fun _ hvs => hvs)
      h.store.functions
  · rw [List.map_append]
    refine List.nodup_append.mpr ⟨h.store.keys, List.nodup_singleton _, ?_⟩
    rintro a ha b hb rfl
    obtain ⟨f', hf', rfl⟩ := List.mem_map.mp ha
    exact hlacks f' (hfunctions ▸ hf') (Prod.ext_iff.mp (List.mem_singleton.mp hb))
  · rw [hother hi]
    exact h.store.inner hi
  · change Sees _ st.env.visible _
    rw [henv] at hid ⊢
    refine .program hid ?_
    rw [hfunctions]
    exact List.prefix_rfl

/-- The name of a variable that the active scope lacks is free. -/
theorem Stands.variableNamed?_eq_none (h : Stands D S d w st (φ :: Γ)) {name : Name}
    (hlacks : φ.LacksVariable name) :
    (st.store.scope st.env.scope).variableNamed? name = none :=
  variableNamed?_eq_none_of_forall₂ (h.store.scope h.sees.active.1) hlacks

/-- The variable that a name means is found. -/
theorem Stands.lookupVariable (h : Stands D S d w st Γ) {name : Name} {ref : VariableRef}
    {v : Variable} (hv : SeesVariable name Γ ref v) :
    ∃ id vs u, st.store.findVariable? st.env name = some (⟨id, name⟩, u) ∧
      w.scopes[id]? = some vs ∧ v ∈ vs ∧ v.name = name ∧ VariableHolds D w.lists v u :=
  h.sees.findVariable? h.store hv

/-- The function that a name means is found. -/
theorem Stands.lookupFunction (h : Stands D S d w st Γ) {name : Name} {arity : Nat}
    {ref : FunctionRef} {f : Function Unit} (hf : SeesFunction name arity Γ ref f) :
    ∃ id g, st.store.findFunction? st.env name arity = some (⟨id, name, arity⟩, g) ∧
      f ∈ w.functions ∧ FunctionHolds D S d w f g :=
  h.sees.findFunction? h.store hf

end PlcLang.Run
