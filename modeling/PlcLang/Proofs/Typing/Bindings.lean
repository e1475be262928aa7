import PlcLang.Proofs.Typing.Program

/-!
# The slots of well typed programs

In the tree that a typing gives to a program, every slot is filled. What the slots refer to is in the
table of the typing, and a node of the tree has created it.

* `Node.Creates`, `Node.CreatesFunction`: the bindings that a node makes.
* `Node.Bound`: the slots of one node.
* `Frame.RecordedIn`: the table has what a scope binds.
* `bound_of_wellTyped`: all nodes of a program.
-/

namespace PlcLang

namespace Node

/-- The node binds the variable, as a global, as a declaration or as a parameter; the first two have a
slot, and the reference is in it. -/
def Creates (ref : VariableRef) (v : Variable) : Node → Prop
  | global name _ _ _ b p | declaration name _ _ b p =>
    b = some ref ∧ v.name = name ∧ v.origin = p
  | function _ parameters _ _ _ _ p => v.name ∈ parameters ∧ v.origin = p
  | _ => False

/-- The node binds the function, and the reference is in its slot. -/
def CreatesFunction (ref : FunctionRef) (f : Function Unit) : Node → Prop
  | function name parameters _ _ _ b p =>
    b = some ref ∧ f.name = name ∧ f.arity = parameters.length ∧ f.origin = p
  | _ => False

open Typing in
/-- The slots of a node of `d` are filled: with a type, and with a binding that the table has and
that a node of `d` has created. -/
def Bound (S : Store Unit) (d : Node) : Node → Prop
  | literal _ t _ | group _ t _ | binary _ _ _ t _ | listLiteral _ t _ => t.isSome = true
  | access name _ t b _ => ∃ ref v, b = some ref ∧ S.variableAt? ref = some v ∧ v.name = name ∧
      t = some v.type ∧ ∃ m, d.Contains m ∧ m.Creates ref v
  | call name arguments t b _ => ∃ ref f, b = some ref ∧ S.functionAt? ref = some f ∧
      f.name = name ∧ f.arity = arguments.length ∧ t = some f.returnType ∧
      (f ∈ builtins.scope.functions ∨ ∃ m, d.Contains m ∧ m.CreatesFunction ref f)
  | declaration name typeName value b p => ∃ ref v, b = some ref ∧ S.variableAt? ref = some v ∧
      v.name = name ∧ v.origin = p ∧ v.isMutable = true ∧
      (typeName = some v.type.name ∨ typeName = none ∧ value.type? = some v.type)
  | global name typeName mutable value b p => ∃ ref v, b = some ref ∧
      S.variableAt? ref = some v ∧ v.name = name ∧ v.origin = p ∧ v.mutable = mutable ∧
      (typeName = some v.type.name ∨ typeName = none ∧ value.type? = some v.type)
  | function name _ typeNames returnName _ b p => ∃ ref f, b = some ref ∧
      S.functionAt? ref = some f ∧ f.name = name ∧ f.origin = p ∧
      typeNames = f.parameterTypes.map (some ·.name) ∧ ReturnType returnName f.returnType
  | _ => True

end Node

namespace Typing

variable {S : Store Unit} {d : Node} {Γ : Context} {φ ψ : Frame}

/-! ## Recorded scopes -/

/-- The table has what the scope binds, and nodes of `d` have created it. -/
structure Frame.RecordedIn (S : Store Unit) (d : Node) (φ : Frame) : Prop where
  variableAt? : ∀ v ∈ φ.scope.variables, S.variableAt? ⟨φ.id, v.name⟩ = some v
  functionAt? : ∀ f ∈ φ.scope.functions, S.functionAt? ⟨φ.id, f.name, f.arity⟩ = some f
  /-- Every variable was created. -/
  creates : ∀ v ∈ φ.scope.variables, ∃ m, d.Contains m ∧ m.Creates ⟨φ.id, v.name⟩ v
  /-- Every function was created or is built in. -/
  createsFunction : ∀ f ∈ φ.scope.functions,
    f ∈ builtins.scope.functions ∨
      ∃ m, d.Contains m ∧ m.CreatesFunction ⟨φ.id, f.name, f.arity⟩ f

/-- The table has what the scopes bind. -/
def Recorded (S : Store Unit) (d : Node) (Γ : Context) : Prop := ∀ φ ∈ Γ, φ.RecordedIn S d

namespace Frame.RecordedIn

theorem empty (id : ScopeId) : Frame.RecordedIn S d ⟨id, {}⟩ :=
  ⟨List.forall_mem_nil _, List.forall_mem_nil _, List.forall_mem_nil _, List.forall_mem_nil _⟩

theorem withVariable (h : φ.RecordedIn S d) {v : Variable} {m : Node}
    (hv : S.variableAt? ⟨φ.id, v.name⟩ = some v) (hm : d.Contains m)
    (hc : m.Creates ⟨φ.id, v.name⟩ v) :
    (φ.withVariable v).RecordedIn S d :=
  ⟨List.forall_mem_append.mpr ⟨h.variableAt?, List.forall_mem_singleton.mpr hv⟩, h.functionAt?,
    List.forall_mem_append.mpr ⟨h.creates, List.forall_mem_singleton.mpr ⟨m, hm, hc⟩⟩,
    h.createsFunction⟩

theorem withFunction (h : φ.RecordedIn S d) {f : Function Unit} {m : Node}
    (hf : S.functionAt? ⟨φ.id, f.name, f.arity⟩ = some f) (hm : d.Contains m)
    (hc : m.CreatesFunction ⟨φ.id, f.name, f.arity⟩ f) : (φ.withFunction f).RecordedIn S d :=
  ⟨h.variableAt?, List.forall_mem_append.mpr ⟨h.functionAt?, List.forall_mem_singleton.mpr hf⟩,
    h.creates,
    List.forall_mem_append.mpr ⟨h.createsFunction, List.forall_mem_singleton.mpr (.inr ⟨m, hm, hc⟩)⟩⟩

end Frame.RecordedIn

theorem Recorded.cons (hφ : φ.RecordedIn S d) (h : Recorded S d Γ) : Recorded S d (φ :: Γ) :=
  List.forall_mem_cons.mpr ⟨hφ, h⟩

theorem Recorded.variableAt? {name : Name} {ref : VariableRef} {v : Variable}
    (h : Recorded S d Γ) (hv : SeesVariable name Γ ref v) :
    S.variableAt? ref = some v ∧ v.name = name ∧ ∃ m, d.Contains m ∧ m.Creates ref v := by
  induction hv with
  | here hv hname =>
    have hφ := h _ List.mem_cons_self
    exact hname ▸ ⟨hφ.variableAt? _ hv, rfl, hφ.creates _ hv⟩
  | outside _ _ ih => exact ih fun φ hφ => h φ (List.mem_cons_of_mem _ hφ)

/-- A name means one variable. -/
theorem Recorded.eq_of_seesVariable {name : Name} {ref ref' : VariableRef} {v v' : Variable}
    (h : Recorded S d Γ) (hv : SeesVariable name Γ ref v) (hv' : SeesVariable name Γ ref' v') :
    v = v' := by
  have href : ref = ref' := by
    clear h
    induction hv with
    | here hmem hname =>
      cases hv' with
      | here => rfl
      | outside hlacks => exact absurd hname (hlacks _ hmem)
    | outside hlacks _ ih =>
      cases hv' with
      | here hmem hname => exact absurd hname (hlacks _ hmem)
      | outside _ hv' => exact ih hv'
  subst href
  exact Option.some.inj ((h.variableAt? hv).1.symm.trans (h.variableAt? hv').1)

theorem Recorded.functionAt? {name : Name} {arity : Nat} {ref : FunctionRef} {f : Function Unit}
    (h : Recorded S d Γ) (hf : SeesFunction name arity Γ ref f) :
    S.functionAt? ref = some f ∧ f.name = name ∧ f.arity = arity ∧
      (f ∈ builtins.scope.functions ∨ ∃ m, d.Contains m ∧ m.CreatesFunction ref f) := by
  induction hf with
  | here hf hname harity =>
    have hφ := h _ List.mem_cons_self
    exact hname ▸ harity ▸ ⟨hφ.functionAt? _ hf, rfl, rfl, hφ.createsFunction _ hf⟩
  | outside _ _ ih => exact ih fun φ hφ => h φ (List.mem_cons_of_mem _ hφ)

theorem recorded_builtins
    (h : ∀ f ∈ builtins.scope.functions, S.functionAt? ⟨0, f.name, f.arity⟩ = some f) :
    builtins.RecordedIn S d :=
  ⟨List.forall_mem_nil _, h, List.forall_mem_nil _, fun _ hf => .inl hf⟩

/-- A function has created its parameters. -/
theorem creates_parameterVariables {name : Name} {names typeNames : List Name} {types : List Ty}
    {returnName : Name} {ss : List Node} {b : Option FunctionRef} {p : Place} :
    ∀ v ∈ parameterVariables p names types, ∀ ref,
      (Node.function name names typeNames returnName ss b p).Creates ref v := by
  intro v hv ref
  obtain ⟨i, hi, rfl⟩ := List.mem_iff_getElem.mp hv
  simp only [parameterVariables, List.getElem_zipWith]
  exact ⟨List.getElem_mem _, rfl⟩

/-! ## Slots -/

theorem HasType.bound {e e' : Node} {τ : Ty} (he : HasType Γ e e' τ) (h : Recorded S d Γ) :
    e'.Everywhere (Node.Bound S d) := by
  induction he with
  | literal _ => exact Node.everywhere_iff.mpr ⟨rfl, nofun⟩
  | group _ _ ih => exact Node.everywhere_iff.mpr ⟨rfl, List.forall_mem_singleton.mpr ih⟩
  | binary _ _ _ hl hr =>
    refine Node.everywhere_iff.mpr ⟨rfl, List.forall_mem_cons.mpr ⟨hl, ?_⟩⟩
    exact List.forall_mem_singleton.mpr hr
  | @reference _ _ _ _ ref v hv =>
    obtain ⟨hat, hname, hcreated⟩ := h.variableAt? hv
    refine Node.everywhere_iff.mpr
      ⟨⟨ref, v, rfl, hat, hname, rfl, hcreated⟩, List.forall_mem_singleton.mpr ?_⟩
    exact Node.everywhere_iff.mpr ⟨trivial, nofun⟩
  | @item _ _ _ _ _ _ ref v hv _ ih =>
    obtain ⟨hat, hname, hcreated⟩ := h.variableAt? hv
    exact Node.everywhere_iff.mpr
      ⟨⟨ref, v, rfl, hat, hname, rfl, hcreated⟩, List.forall_mem_singleton.mpr ih⟩
  | @call _ _ _ _ ref f as hf _ _ ih =>
    obtain ⟨hat, hname, harity, hcreated⟩ := h.functionAt? hf
    refine Node.everywhere_iff.mpr
      ⟨⟨ref, f, rfl, hat, hname, by rw [harity, List.length_map], rfl, hcreated⟩, fun c hc => ?_⟩
    obtain ⟨a, ha, rfl⟩ := List.mem_map.mp hc
    exact ih a ha
  | list a as _ _ ih =>
    refine Node.everywhere_iff.mpr ⟨rfl, fun c hc => ?_⟩
    obtain ⟨x, hx, rfl⟩ := List.mem_map.mp hc
    exact ih x hx

theorem everywhere_missing : Node.Everywhere (Node.Bound S d) .missing :=
  Node.everywhere_iff.mpr ⟨trivial, nofun⟩

theorem Initial.bound {typeName : Name} {value value' : Node} {τ : Ty}
    (hi : Initial Γ typeName value value' τ) (h : Recorded S d Γ) :
    value'.Everywhere (Node.Bound S d) ∧
      (typeName = some τ.name ∨ typeName = none ∧ value'.type? = some τ) := by
  cases hi with
  | inferred hτ => exact ⟨hτ.bound h, .inr ⟨rfl, hτ.type?⟩⟩
  | named => exact ⟨everywhere_missing, .inl rfl⟩
  | checked _ hσ _ => exact ⟨hσ.bound h, .inl rfl⟩

theorem Checks.bound {R : Ty} {n m : ScopeId} {ss ss' : List Node}
    (hc : Checks S R Γ n ss ss' m) (h : Recorded S d Γ) (hd : ∀ s ∈ ss', d.Contains s) :
    ∀ s ∈ ss', s.Everywhere (Node.Bound S d) := by
  induction hc with
  | nil => exact nofun
  | expressionStatement _ hτ _ ih =>
    obtain ⟨-, hd⟩ := List.forall_mem_cons.mp hd
    refine List.forall_mem_cons.mpr ⟨Node.everywhere_iff.mpr ⟨trivial, ?_⟩, ih h hd⟩
    exact List.forall_mem_singleton.mpr (hτ.bound h)
  | declaration hi _ hat _ ih =>
    obtain ⟨hs, hd⟩ := List.forall_mem_cons.mp hd
    obtain ⟨hφ, hΓ⟩ := List.forall_mem_cons.mp h
    obtain ⟨hvalue, htype⟩ := hi.bound h
    refine List.forall_mem_cons.mpr ⟨Node.everywhere_iff.mpr
      ⟨⟨_, _, rfl, hat, rfl, rfl, rfl, htype⟩, List.forall_mem_singleton.mpr hvalue⟩, ?_⟩
    exact ih (.cons (hφ.withVariable hat hs ⟨rfl, rfl, rfl⟩) hΓ) hd
  | assignment _ _ hr hv _ _ ih =>
    obtain ⟨-, hd⟩ := List.forall_mem_cons.mp hd
    refine List.forall_mem_cons.mpr ⟨Node.everywhere_iff.mpr ⟨trivial, ?_⟩, ih h hd⟩
    exact List.forall_mem_cons.mpr ⟨hr.bound h, List.forall_mem_singleton.mpr (hv.bound h)⟩
  | conditional hτ _ _ _ hthen helse ih =>
    obtain ⟨hs, hd⟩ := List.forall_mem_cons.mp hd
    refine List.forall_mem_cons.mpr ⟨Node.everywhere_iff.mpr ⟨trivial, ?_⟩, ih h hd⟩
    refine List.forall_mem_cons.mpr ⟨hτ.bound h, List.forall_mem_append.mpr ⟨?_, ?_⟩⟩
    · exact hthen (.cons (.empty _) h) fun s ht =>
        .child hs (List.mem_cons_of_mem _ (List.mem_append_left _ ht))
    · exact helse (.cons (.empty _) h) fun s ht =>
        .child hs (List.mem_cons_of_mem _ (List.mem_append_right _ ht))
  | switch ks default hτ hks _ hdefault _ _ _ hblocks ih =>
    obtain ⟨hs, hd⟩ := List.forall_mem_cons.mp hd
    refine List.forall_mem_cons.mpr ⟨Node.everywhere_iff.mpr ⟨trivial, ?_⟩, ih h hd⟩
    refine List.forall_mem_cons.mpr ⟨hτ.bound h, fun c hc => ?_⟩
    have hcase := Node.Contains.child hs (List.mem_cons_of_mem _ hc)
    obtain ⟨k, hk, rfl⟩ := List.mem_map.mp hc
    have hvalue : k.value'.Everywhere (Node.Bound S d) := by
      rcases List.mem_append.mp hk with hk | hk
      · obtain ⟨ρ, hρ, -⟩ := hks k hk
        exact hρ.bound h
      · rw [List.mem_singleton.mp hk, hdefault]
        exact everywhere_missing
    refine Node.everywhere_iff.mpr ⟨trivial, List.forall_mem_cons.mpr ⟨hvalue, ?_⟩⟩
    exact hblocks k hk (.cons (.empty _) h) fun s ht => .child hcase (List.mem_cons_of_mem _ ht)
  | whileLoop hτ _ _ hbody ih =>
    obtain ⟨hs, hd⟩ := List.forall_mem_cons.mp hd
    refine List.forall_mem_cons.mpr ⟨Node.everywhere_iff.mpr ⟨trivial, ?_⟩, ih h hd⟩
    refine List.forall_mem_cons.mpr ⟨hτ.bound h, ?_⟩
    exact hbody (.cons (.empty _) h) fun s ht => .child hs (List.mem_cons_of_mem _ ht)
  | returning hτ _ _ ih =>
    obtain ⟨-, hd⟩ := List.forall_mem_cons.mp hd
    refine List.forall_mem_cons.mpr ⟨Node.everywhere_iff.mpr ⟨trivial, ?_⟩, ih h hd⟩
    exact List.forall_mem_singleton.mpr (hτ.bound h)

theorem ChecksGlobals.bound {gs gs' : List Node} (hc : ChecksGlobals S φ gs gs' ψ)
    (h : φ.RecordedIn S d) (hd : ∀ g ∈ gs', d.Contains g) :
    ψ.RecordedIn S d ∧ ∀ g ∈ gs', g.Everywhere (Node.Bound S d) := by
  induction hc with
  | nil => exact ⟨h, nofun⟩
  | global hi _ hat _ ih =>
    obtain ⟨hg, hd⟩ := List.forall_mem_cons.mp hd
    obtain ⟨hψ, hgs⟩ := ih (h.withVariable hat hg ⟨rfl, rfl, rfl⟩) hd
    obtain ⟨hvalue, htype⟩ := hi.bound (Recorded.cons h nofun)
    exact ⟨hψ, List.forall_mem_cons.mpr ⟨Node.everywhere_iff.mpr
      ⟨⟨_, _, rfl, hat, rfl, rfl, rfl, htype⟩, List.forall_mem_singleton.mpr hvalue⟩, hgs⟩⟩

/-- The scopes in the body of a function are recorded. -/
theorem recorded_body {n : ScopeId} {f : Function Unit} {names typeNames : List Name}
    {types : List Ty} {returnName : Name} {ss : List Node} {p : Place}
    (h : φ.RecordedIn S d) (hf : S.functionAt? ⟨φ.id, f.name, f.arity⟩ = some f)
    (hs : d.Contains (.function f.name names typeNames returnName ss
      (some ⟨φ.id, f.name, f.arity⟩) p))
    (harity : f.arity = names.length) (horigin : f.origin = p)
    (hparameters : ∀ v ∈ parameterVariables p names types, S.variableAt? ⟨n, v.name⟩ = some v) :
    Recorded S d
      [⟨n, { «variables» := parameterVariables p names types }⟩, φ.withFunction f] :=
  .cons ⟨hparameters, List.forall_mem_nil _,
      fun v hv => ⟨_, hs, creates_parameterVariables v hv _⟩, List.forall_mem_nil _⟩
    (.cons (h.withFunction hf hs ⟨rfl, rfl, harity, horigin⟩) nofun)

theorem ChecksFunctions.bound {n : ScopeId} {fs fs' : List Node}
    (hc : ChecksFunctions S φ n fs fs' ψ) (h : φ.RecordedIn S d) (hd : ∀ f ∈ fs', d.Contains f) :
    ∀ f ∈ fs', f.Everywhere (Node.Bound S d) := by
  induction hc with
  | nil => exact nofun
  | @function φ n name parameters types _ R _ _ _ p _ _ _ _ hlength hR _ _ hat hparameters hbody _
      ih =>
    obtain ⟨hf, hd⟩ := List.forall_mem_cons.mp hd
    have hrecorded := recorded_body
      (f := { name, parameterTypes := types, returnType := R, origin := p }) h hat hf hlength.symm rfl
      hparameters
    refine List.forall_mem_cons.mpr ⟨Node.everywhere_iff.mpr
      ⟨⟨_, _, rfl, hat, rfl, rfl, rfl, hR⟩, ?_⟩, ih (hrecorded _ (by simp)) hd⟩
    exact hbody.bound hrecorded fun s hs => .child hf hs

/-- **Every slot of a well typed program is filled, with what the table has and a node of the program
has created.** -/
theorem bound_of_wellTyped {t d : Node} (h : t.WellTyped S d) : d.Everywhere (Node.Bound S d) := by
  cases h with
  | @source gs gs' fs fs' φ ψ ref f hprint hgs hfs _ _ =>
    have hd : ∀ x ∈ gs' ++ fs', (Node.source gs' fs').Contains x := fun x hx => .child .self hx
    obtain ⟨hd, hd'⟩ := List.forall_mem_append.mp hd
    obtain ⟨hφ, hgs'⟩ := hgs.bound (recorded_builtins hprint) hd
    exact Node.everywhere_iff.mpr
      ⟨trivial, List.forall_mem_append.mpr ⟨hgs', hfs.bound hφ hd'⟩⟩

end Typing

end PlcLang
