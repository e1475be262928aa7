import PlcLang.Proofs.Evaluation.Regime

/-!
# What every step keeps

What one step can do is said once: a lawful regime is kept by every step.

* `Upheld`: evaluations of nodes that keep a regime.
* `Upheld.block`, `Upheld.invoke`, …: the parts of a step.
* `step_follows`: one step.
-/

namespace PlcLang.Run

open Walk

/-! ## Parts of a step -/

/-- Both evaluations of nodes end alike and keep the regime wherever a node may be evaluated. -/
def Upheld (R : Regime) (A : Stop → Prop) (d : Nat) (V G : Node → Run Value) : Prop :=
  ∀ n s, R.good d n → R.Holds s → Follows R A (V n) (G n) s fun v t => R.Fits t v

section

variable {R : Regime} {A : Stop → Prop} {d : Nat} {V G : Node → Run Value} {s : State Body String}
  {name : Name} {place : Place} {node : Node} {nodes : List Node} {arguments : List Value} {v : Value}

theorem Regime.Holds.fits_of_variableAt? (h : R.Holds s) {ref : VariableRef} {u : Variable}
    (hu : s.store.variableAt? ref = some u) : R.Fits s u.value :=
  h.held _ u (List.mem_of_find?_eq_some hu)

theorem Regime.Holds.runs_of_functionAt? (h : R.Holds s) {ref : FunctionRef} {f : Function Body}
    (hf : s.store.functionAt? ref = some f) : R.runs f :=
  h.functions _ f (List.mem_of_find?_eq_some hf)

theorem integer?_of_bodyFor {f : Function Body} {received : Nat} {e : Fault}
    (h : f.bodyFor received = .error e) : e.integer? = none := by
  unfold Function.bodyFor at h
  split at h
  · cases h
    rfl
  · split at h <;> cases h
    rfl

namespace Regime.Lawful

variable (hR : R.Lawful)

include hR

theorem bodyFor_ends {f : Function Body} {received : Nat} :
    Ends R.allows (lift (f.bodyFor received)) s fun _ _ => True :=
  .lift (fun _ _ => trivial) fun _ h => hR.raised (integer?_of_bodyFor h)

theorem require_ends {c : Bool} {f : Fault} (hf : f.integer? = none) :
    Ends R.allows (require c f) s fun _ _ => True :=
  (Agrees.require_ends fun _ => hR.raised hf).mono fun _ _ _ => trivial

theorem requireList_ends : Ends R.allows (requireList name v) s fun _ _ => True :=
  (Run.requireList_ends (hR.raised rfl)).mono fun _ _ _ => trivial

theorem requireIndex_ends {id : ListId} {i : Int} (hi : R.Fits s (.integer i)) :
    Ends R.allows (requireIndex id i) s fun _ _ => True :=
  (Run.requireIndex_ends fun _ => hR.fault fun _ hj => Option.some.inj hj ▸ hi).mono fun _ _ _ => trivial

theorem lookupVariable_ends : Ends R.allows (lookupVariable name) s fun _ _ => True :=
  (Agrees.lookupVariable_ends (hR.raised rfl)).mono fun _ _ _ => trivial

theorem lookupFunction_ends {arity : Nat} :
    Ends R.allows (lookupFunction name arity) s fun _ _ => True :=
  (Agrees.lookupFunction_ends (hR.raised rfl)).mono fun _ _ _ => trivial

end Regime.Lawful

theorem requireList_eq_ok {id : ListId} {t : State Body String} :
    requireList name v s = .ok id t ↔ v = .list id ∧ s = t := by
  unfold requireList
  split <;> simp_all

theorem requireIndex_eq_ok {id : ListId} {i : Int} {k : Nat} {t : State Body String} :
    requireIndex id i s = .ok k t ↔
      0 ≤ i ∧ i < (s.store.list id).size ∧ i.toNat = k ∧ s = t := by
  have heq : requireIndex id i s = (if 0 ≤ i ∧ i < (s.store.list id).size then pure i.toNat
    else raise (.indexRange i (s.store.list id).size) : Run Nat) s := rfl
  rw [heq]
  by_cases h : 0 ≤ i ∧ i < (s.store.list id).size
  · rw [if_pos h, pure_eq_ok]
    exact ⟨fun hk => ⟨h.1, h.2, hk⟩, fun hk => hk.2.2⟩
  · rw [if_neg h]
    exact ⟨fun hk => absurd hk raise_eq_ok, fun hk => absurd ⟨hk.1, hk.2.1⟩ h⟩

theorem requireInteger_eq_ok {i : Int} {t : State Body String} (h : requireInteger v s = .ok i t) :
    v = .integer i := by
  unfold requireInteger at h
  split at h
  next => rw [(pure_eq_ok.mp h).1]
  next =>
    obtain ⟨_, _, _, hraise⟩ := bind_eq_ok.mp h
    exact absurd hraise raise_eq_ok

theorem body_of_bodyFor {f : Function Body} {received : Nat} {body : Body}
    (h : f.bodyFor received = .ok body) : f.body = some body := by
  unfold Function.bodyFor at h
  split at h
  · cases h
  next b hb =>
    split at h <;> cases h
    exact hb

/-! ## Changes of the state -/

section

variable (hR : R.Lawful)

include hR

theorem defineVariable_follows {u : Variable} (hs : R.Holds s) (hu : R.Fits s u.value) :
    Follows R A (defineVariable u) (defineVariable u) s fun _ _ => True := by
  cases hu' : (s.store.scope s.env.scope).variableNamed? u.name with
  | none =>
    exact .of_ok (defineVariable_eq_ok.mpr ⟨hu', rfl, rfl⟩) trivial (hs.withVariable hR.toStable hu) (Nat.le_refl _)
  | some w => exact .of_error (defineVariable_of_some hu') (hR.raised rfl) hs

theorem defineFunction_follows {f : Function Body} (hs : R.Holds s) (hf : R.runs f) :
    Follows R A (defineFunction f) (defineFunction f) s fun _ _ => True := by
  cases hf' : (s.store.scope s.env.scope).functionNamed? f.name f.arity with
  | none =>
    exact .of_ok (defineFunction_eq_ok.mpr ⟨hf', rfl, rfl⟩) trivial (hs.withFunction hR.toStable hf) (Nat.le_refl _)
  | some w => exact .of_error (defineFunction_of_some hf') (hR.raised rfl) hs

theorem bindParameters_follows {names : List Name} (hs : R.Holds s)
    (harguments : ∀ v ∈ arguments, R.Fits s v) :
    Follows R A (bindParameters place names arguments) (bindParameters place names arguments) s
      fun _ _ => True := by
  induction names generalizing arguments s with
  | nil => exact .pure hs trivial
  | cons name names ih =>
    cases arguments with
    | nil => exact .pure hs trivial
    | cons v vs =>
      obtain ⟨hv, hvs⟩ := List.forall_mem_cons.mp harguments
      refine (defineVariable_follows hR hs hv).bind fun _ t _ _ ht hsize => ?_
      exact ih ht fun v hv => hR.mono hsize (hvs v hv)

/-! ## Blocks and calls -/

theorem Upheld.block (h : Upheld R A d V G) (hs : R.Holds s) (hnodes : ∀ n ∈ nodes, R.good d n) :
    Follows R A (block V nodes) (block G nodes) s fun v t => R.Fits t v := by
  induction nodes generalizing s with
  | nil => exact .pure hs (hR.carryOn _)
  | cons n ns ih =>
    obtain ⟨hn, hns⟩ := List.forall_mem_cons.mp hnodes
    refine (h n s hn hs).bind fun v t _ hv ht _ => ?_
    cases v with
    | returned r => exact .pure ht hv
    | _ => exact ih ht hns

theorem Upheld.inBlock (h : Upheld R A d V G) (hs : R.Holds s) (hnodes : ∀ n ∈ nodes, R.good d n) :
    Follows R A (inChild (Run.block V nodes)) (inChild (Run.block G nodes)) s fun v t => R.Fits t v :=
  .inChildOf (h.block hR (hs.openedIn hR.toStable s.env) hnodes) fun _ _ hv => hv

theorem Upheld.values (h : Upheld R A d V G) (hs : R.Holds s) (hnodes : ∀ n ∈ nodes, R.good d n) :
    Follows R A (values V nodes) (values G nodes) s fun vs t => ∀ v ∈ vs, R.Fits t v := by
  induction nodes generalizing s with
  | nil => exact .pure hs (List.forall_mem_nil _)
  | cons n ns ih =>
    obtain ⟨hn, hns⟩ := List.forall_mem_cons.mp hnodes
    refine (h n s hn hs).bind fun v t _ hv ht _ => (ih ht hns).bind fun vs u _ hvs hu hsize => ?_
    exact .pure hu (List.forall_mem_cons.mpr ⟨hR.mono hsize hv, hvs⟩)

theorem Upheld.invoke (h : Upheld R A d V G) {f : Function Body} (hs : R.Holds s)
    (hf : f.HasCode (R.good d)) (harguments : ∀ v ∈ arguments, R.Fits s v) :
    Follows R A (invoke V f arguments) (invoke G f arguments) s fun v t => R.Fits t v := by
  refine .bind_still .lift hs hR.bodyFor_ends fun body hbody _ => ?_
  have hbody := body_of_bodyFor (lift_eq_ok.mp hbody).1
  cases body with
  | print =>
    have hfirst : R.Fits s (arguments.headD .nil) := by
      cases arguments with
      | nil => exact hR.nil _
      | cons v vs => exact harguments v List.mem_cons_self
    refine .bind_still textOf_still hs (hR.textOf hs hfirst) fun text _ _ => ?_
    exact .of_ok rfl (hR.nil _) (hs.of_store_eq rfl) (Nat.le_refl _)
  | code env parameters statements place =>
    refine .inChildOf (Q := fun v t => R.Fits t v) ?_ fun _ _ hv => hv
    have hopened := hs.openedIn hR.toStable env
    refine (bindParameters_follows hR hopened harguments).bind fun _ t _ _ ht _ => ?_
    refine (h.block hR ht (hf _ _ _ _ hbody)).bind fun v u _ hv hu _ => ?_
    cases v with
    | returned r => exact .pure hu (hR.returned.mp hv)
    | _ => exact .pure hu (hR.nil _)

/-- What is called may run code that may be evaluated. -/
theorem Upheld.callWith (h : Upheld R A d V G) (hs : R.Holds s) (hnodes : ∀ n ∈ nodes, R.good d n)
    (hcallee : ∀ ref f, s.store.findFunction? s.env name nodes.length = some (ref, f) → R.runs f →
      f.HasCode (R.good d)) :
    Follows R A (callWith V name nodes) (callWith G name nodes) s fun v t => R.Fits t v := by
  refine .bind_still .lookupFunction hs hR.lookupFunction_ends fun found hfound _ => ?_
  have hfound := (lookupFunction_eq_ok.mp hfound).1
  have hruns := hs.runs_of_functionAt? (Store.functionAt?_of_findFunction? hfound)
  exact (h.values hR hs hnodes).bind fun vs t _ hvs ht _ => h.invoke hR ht (hcallee _ _ hfound hruns) hvs

/-! ## Statements -/

theorem Upheld.choose (h : Upheld R A d V G) (hs : R.Holds s) (hv : R.Fits s v)
    (hnodes : ∀ n ∈ nodes, R.good d n ∧ ∀ value ∈ n.caseValue?, R.good d value)
    (hcases : ∀ n ∈ nodes, n.caseValue? = none → R.allows .malformed)
    {default : Option Node} (hdefault : ∀ n ∈ default, R.good d n) :
    Follows R A (choose V v default nodes) (choose G v default nodes) s fun v t => R.Fits t v := by
  induction nodes generalizing default s with
  | nil =>
    cases default with
    | some n => exact h n s (hdefault n rfl) hs
    | none => exact .pure hs (hR.carryOn _)
  | cons n ns ih =>
    obtain ⟨⟨hn, hvalue⟩, hns⟩ := List.forall_mem_cons.mp hnodes
    obtain ⟨hcase, hcases⟩ := List.forall_mem_cons.mp hcases
    unfold Run.choose
    cases hpart : n.caseValue? with
    | none => exact .throw hs (hcase hpart)
    | some value =>
      refine .ite (fun _ => ?_) fun _ => ih hs hv hns hcases fun m hm => Option.some.inj hm ▸ hn
      refine (h value s (hvalue value hpart) hs).bind fun u t _ hu ht hsize => ?_
      have hv := hR.mono hsize hv
      refine .bind_still equal_still ht (hR.equal ht hv hu) fun _ _ _ => .ite (fun _ => h n t hn ht) fun _ => ?_
      exact ih ht hv hns hcases hdefault

/-- The second loop may have more rounds if it does not matter that the first one is cut off. -/
theorem Upheld.repeatWhile (h : Upheld R A d V G) {rounds rounds' : Nat}
    (hrounds : rounds = rounds' ∨ A .unfinished ∧ rounds ≤ rounds') (hs : R.Holds s)
    (hcutOff : R.allows .unfinished) (hnode : R.good d node) (hnodes : ∀ n ∈ nodes, R.good d n) :
    Follows R A (repeatWhile V node nodes rounds) (repeatWhile G node nodes rounds') s
      fun v t => R.Fits t v := by
  induction rounds generalizing rounds' s with
  | zero =>
    rcases hrounds with rfl | ⟨hA, -⟩
    · exact .throw hs hcutOff
    · exact .excused rfl hA
  | succ rounds ih =>
    obtain ⟨rounds', rfl⟩ : ∃ k, rounds' = k + 1 :=
      Nat.exists_eq_add_of_le' (hrounds.elim (fun h => h ▸ Nat.le_add_left _ _) fun h => by omega)
    have hrounds : rounds = rounds' ∨ A .unfinished ∧ rounds ≤ rounds' :=
      hrounds.imp Nat.succ.inj fun h => ⟨h.1, Nat.le_of_succ_le_succ h.2⟩
    refine (h node s hnode hs).bind fun b t _ hb ht _ => ?_
    refine .bind_still requireBoolean_still ht (hR.requireBoolean ht hb) fun _ _ _ => .ite (fun _ => ?_)
      fun _ => .pure ht (hR.carryOn _)
    refine (h.inBlock hR ht hnodes).bind fun v u _ hv hu _ => ?_
    cases v with
    | returned r => exact .pure hu hv
    | _ => exact ih hrounds hu

theorem Upheld.branch (h : Upheld R A d V G) {ts es : List Node} (hs : R.Holds s)
    (hnode : R.good d node) (hts : ∀ n ∈ ts, R.good d n) (hes : ∀ n ∈ es, R.good d n) :
    Follows R A (branch V node ts es) (branch G node ts es) s fun v t => R.Fits t v := by
  refine (h node s hnode hs).bind fun b t _ hb ht _ => ?_
  exact .bind_still requireBoolean_still ht (hR.requireBoolean ht hb) fun _ _ _ =>
    .ite (fun _ => h.inBlock hR ht hts) fun _ => h.inBlock hR ht hes

theorem Upheld.declare (h : Upheld R A d V G) {mutable : Option Bool} (hs : R.Holds s)
    (hnode : R.good d node) :
    Follows R A (declare V name mutable node place) (declare G name mutable node place) s
      fun _ _ => True := by
  have hvalue : Follows R A (valueOf V node) (valueOf G node) s fun v t => R.Fits t v :=
    .ite (fun _ => h node s hnode hs) fun _ => .pure hs (hR.nil _)
  refine hvalue.bind fun v t _ hv ht _ => ?_
  exact (defineVariable_follows hR ht hv).bind fun _ u _ _ hu _ => .pure hu trivial

theorem declareFunction_follows {parameters : List Name} (hs : R.Holds s)
    (hruns : ∀ env, R.runs
      { name, parameterTypes := parameters.map fun _ => .any, returnType := .any, origin := place,
        body := some (.code env parameters nodes place) }) :
    Follows R A (declareFunction name parameters nodes place)
      (declareFunction name parameters nodes place) s fun _ _ => True :=
  (defineFunction_follows hR hs (hruns s.env)).bind fun _ _ _ _ ht _ => .pure ht trivial

/-- An assignment that replaces an item is asked to keep the lists as they should be. -/
theorem Upheld.assign (h : Upheld R A d V G) {offset value : Node} (hs : R.Holds s)
    (ho : R.good d offset) (hvalue : R.good d value)
    (hitem : ∀ ref u id i v s₁ s₂, s.store.findVariable? s.env name = some (ref, u) →
      u.isMutable = true → offset.isPresent = true → u.value = .list id →
      V offset s = .ok (.integer i) s₁ → V value s₁ = .ok v s₂ → R.Holds s₂ → R.Fits s₂ v → 0 ≤ i →
      i < (s₂.store.list id).size → R.tame (s₂.store.setItem id i.toNat v)) :
    Follows R A (assign V name offset value) (assign G name offset value) s fun _ _ => True := by
  refine .bind_still .lookupVariable hs hR.lookupVariable_ends fun found hfound _ => ?_
  have hfound := (lookupVariable_eq_ok.mp hfound).1
  refine .bind_still .require hs (hR.require_ends rfl) fun _ hmutable _ => .ite (fun hpresent => ?_) fun _ => ?_
  · refine .bind_still requireList_still hs hR.requireList_ends fun id hid _ => ?_
    obtain ⟨hid, -⟩ := requireList_eq_ok.mp hid
    refine (h offset s ho hs).bind fun a s₁ ha hindex hs₁ _ => ?_
    refine .bind_still requireInteger_still hs₁ (hR.requireInteger hs₁ hindex) fun i hi _ => ?_
    obtain rfl := requireInteger_eq_ok hi
    refine (h value s₁ hvalue hs₁).bind fun v s₂ hv hfits hs₂ hsize => ?_
    refine .bind_still requireIndex_still hs₂ (hR.requireIndex_ends (hR.mono hsize hindex)) fun k hk _ => ?_
    obtain ⟨hle, hlt, rfl, -⟩ := requireIndex_eq_ok.mp hk
    have htame := hitem _ _ _ _ _ _ _ hfound (require_eq_ok.mp hmutable).1 hpresent hid ha hv hs₂ hfits hle hlt
    exact .of_ok rfl trivial (hs₂.setItem hfits htame) (by simp [Store.setItem])
  · refine (h value s hvalue hs).bind fun v t _ hv ht _ => ?_
    exact .of_ok rfl trivial (ht.setVariable hR.toStable hv _) (Nat.le_refl _)

/-! ## Expressions -/

theorem Upheld.access (h : Upheld R A d V G) (hs : R.Holds s) (hnode : R.good d node) :
    Follows R A (access V name node) (access G name node) s fun v t => R.Fits t v := by
  refine .bind_still .lookupVariable hs hR.lookupVariable_ends fun found hfound _ => ?_
  have hfound := Store.variableAt?_of_findVariable? (lookupVariable_eq_ok.mp hfound).1
  refine .ite (fun _ => ?_) fun _ => .pure hs (hs.fits_of_variableAt? hfound)
  refine .bind_still requireList_still hs hR.requireList_ends fun id _ _ => ?_
  refine (h node s hnode hs).bind fun a t _ ha ht _ => ?_
  refine .bind_still requireInteger_still ht (hR.requireInteger ht ha) fun i hi _ => ?_
  obtain rfl := requireInteger_eq_ok hi
  refine .bind_still requireIndex_still ht (hR.requireIndex_ends ha) fun k hk _ => ?_
  obtain ⟨hle, hlt, rfl, -⟩ := requireIndex_eq_ok.mp hk
  have hindex : i.toNat < (t.store.list id).size := by omega
  -- the index was found to be one of the list
  have hitem : (part (t.store.list id)[i.toNat]? : Run Value) t =
      .ok (t.store.list id)[i.toNat] t := by
    rw [Array.getElem?_eq_getElem hindex]
    rfl
  exact .of_ok hitem (ht.items id _ (Array.getElem_mem hindex)) ht (Nat.le_refl _)

theorem Upheld.operation (h : Upheld R A d V G) {op : Operator} {left right : Node} (hs : R.Holds s)
    (hl : R.good d left) (hr : R.good d right) :
    Follows R A (operation V op left right) (operation G op left right) s fun v t => R.Fits t v := by
  refine (h left s hl hs).bind fun l t _ hfits ht _ => ?_
  have hright : Follows R A (do return Value.boolean (← requireBoolean (← V right)))
      (do return Value.boolean (← requireBoolean (← G right))) t fun v u => R.Fits u v := by
    refine (h right t hr ht).bind fun b u _ hb hu _ => ?_
    exact .bind_still requireBoolean_still hu (hR.requireBoolean hu hb) fun _ _ _ =>
      .pure hu (hR.boolean _ _)
  have hleft := hR.requireBoolean ht hfits
  split
  · exact .bind_still requireBoolean_still ht hleft fun _ _ _ =>
      .ite (fun _ => hright) fun _ => .pure ht (hR.boolean _ _)
  · exact .bind_still requireBoolean_still ht hleft fun _ _ _ =>
      .ite (fun _ => .pure ht (hR.boolean _ _)) fun _ => hright
  · refine (h right t hr ht).bind fun r u _ hr hu hsize => ?_
    exact .of_still operate_still hu (hR.operate hu (hR.mono hsize hfits) hr) fun _ hv => hv

/-! ## Steps -/

theorem Upheld.runProgram (h : Upheld R A d V G) {globals functions : List Node} (hs : R.Holds s)
    (hglobals : ∀ n ∈ globals, R.good d n) (hfunctions : ∀ n ∈ functions, R.good d n)
    (hmain : ∀ f, R.runs f → f.HasCode (R.good d)) :
    Follows R A (runProgram V globals functions) (runProgram G globals functions) s
      fun v t => R.Fits t v := by
  refine (h.values hR hs hglobals).bind fun _ t _ _ ht _ => ?_
  refine (h.values hR ht hfunctions).bind fun _ u _ _ hu _ => ?_
  refine .bind_still .lookupFunction hu hR.lookupFunction_ends fun found hfound _ => ?_
  have hfound := Store.functionAt?_of_findFunction? (lookupFunction_eq_ok.mp hfound).1
  exact h.invoke hR hu (hmain _ (hu.runs_of_functionAt? hfound)) (List.forall_mem_nil _)

/-- **One step keeps a lawful regime.** The first evaluation of parts is the real one where it has a
result; the second one may have more rounds for loops. -/
theorem step_follows (h : Upheld R A d V G)
    (hvisit : ∀ n s v t, V n s = .ok v t → visit d n s = .ok v t) {rounds rounds' : Nat}
    (hrounds : rounds = rounds' ∨ A .unfinished ∧ rounds ≤ rounds') {n : Node}
    (hn : R.good (d + 1) n) (hs : R.Holds s) (hcheck : R.check (d + 1) n s) :
    Follows R A (step V rounds n) (step G rounds' n) s fun v t => R.Fits t v := by
  have hpart (c : Node) (hc : c ∈ n.children) : R.good d c := (hR.part hn hc).1
  -- a statement that is done leaves a value that may occur
  have hdone {x y : Run Unit} {v : Value} (hx : Follows R A x y s fun _ _ => True)
      (hv : ∀ t, R.Fits t v) :
      Follows R A (do x; return v) (do y; return v) s fun v t => R.Fits t v :=
    hx.bind fun _ t _ _ ht _ => .pure ht (hv t)
  cases n with
  | missing | bare => exact .raise hR hs rfl
  | literal => exact .pure hs (hR.literal hn)
  | group e => exact h e s (hpart e List.mem_cons_self) hs
  | binary op l r =>
    exact h.operation hR hs (hpart l List.mem_cons_self) (hpart r (List.mem_cons_of_mem _ List.mem_cons_self))
  | access name offset => exact h.access hR hs (hpart offset List.mem_cons_self)
  | call name arguments =>
    exact h.callWith hR hs hpart fun ref f hf hruns => hR.call hn hcheck hf hruns
  | listLiteral elements =>
    refine (h.values hR hs hpart).bind fun vs t _ hvs ht _ => ?_
    obtain ⟨hfits, htame⟩ := hR.newList hn ht hvs
    refine .of_ok rfl ?_ (ht.newList hR.toStable (fun v hv => hvs v (List.mem_toArray.mp hv)) htame)
      (by simp)
    simpa [Regime.Fits, Store.newList] using hfits
  | expressionStatement e =>
    exact (h e s (hpart e List.mem_cons_self) hs).bind fun _ t _ _ ht _ => .pure ht (hR.carryOn _)
  | declaration name typeName value =>
    exact hdone (h.declare hR hs (hpart value List.mem_cons_self)) fun _ => hR.carryOn _
  | assignment receiver value =>
    cases receiver with
    | access name offset =>
      refine hdone (h.assign hR hs ?_ (hpart value (List.mem_cons_of_mem _ List.mem_cons_self)) ?_)
        fun _ => hR.carryOn _
      · exact (hR.part hn List.mem_cons_self).2 offset List.mem_cons_self
      · intro ref u id i v s₁ s₂ hu hmutable hpresent hid hi hv hs₂ hfits hle hlt
        exact hR.setItem hcheck hu hmutable hpresent hid (hvisit _ _ _ _ hi) (hvisit _ _ _ _ hv) hs₂ hfits hle hlt
    | _ => exact .raise hR hs rfl
  | conditional c ts es =>
    obtain ⟨hc, hblocks⟩ := List.forall_mem_cons.mp hpart
    obtain ⟨hts, hes⟩ := List.forall_mem_append.mp hblocks
    exact h.branch hR hs hc hts hes
  | case value ss => exact h.inBlock hR hs (List.forall_mem_cons.mp hpart).2
  | switch c cases =>
    obtain ⟨hc, -⟩ := List.forall_mem_cons.mp hpart
    refine (h c s hc hs).bind fun v t _ hv ht _ => ?_
    refine h.choose hR ht hv (fun m hm => ?_) (fun m hm => hR.case hn hm)
      fun m hm => absurd hm (Option.not_mem_none m)
    obtain ⟨hm, hparts⟩ := hR.part hn (List.mem_cons_of_mem _ hm)
    exact ⟨hm, fun value hvalue => hparts value (Node.mem_children_of_caseValue? hvalue)⟩
  | whileLoop c ss =>
    obtain ⟨hc, hss⟩ := List.forall_mem_cons.mp hpart
    exact h.repeatWhile hR hrounds hs (hR.loop hn) hc hss
  | returning e =>
    exact (h e s (hpart e List.mem_cons_self) hs).bind fun _ t _ hv ht _ => .pure ht (hR.returned.mpr hv)
  | global name typeName mutable value =>
    exact hdone (h.declare hR hs (hpart value List.mem_cons_self)) fun _ => hR.nil _
  | function =>
    exact hdone (declareFunction_follows hR hs fun env => hR.function hn) fun _ => hR.nil _
  | source gs fs =>
    obtain ⟨hgs, hfs⟩ := List.forall_mem_append.mp hpart
    exact h.runProgram hR hs hgs hfs fun f hf => hR.main hn hf

end

end

end PlcLang.Run
