import Mathlib.Data.List.Nodup
import PlcLang.Proofs.Grammar.Spelling
import PlcLang.Proofs.Typing.Rules

/-!
# Binders

The nodes that bind names. In a tree that was read from a text they all stand at different places, and
the analysis leaves them where they are, so that a place tells which node made a binding.

* `Node.binders`, `Node.binderPlaces`: the binders of a tree and where they stand, in the order of the
  text.
* `Grammar.Reads.nodup_places`: lexemes stand at different places.
* `SpellsProgram.bindersAmong`: binders stand where lexemes stand.
* `binderPlaces_of_wellTyped`: the analysis moves no binder.
-/

namespace PlcLang

namespace Node

/-! ## All binders -/

/-- The node binds names. -/
def isBinder : Node → Bool
  | declaration .. | global .. | function .. => true
  | _ => false

/-- The nodes of a tree that bind names. -/
def binders (d : Node) : List Node := d.subtrees.filter isBinder

theorem mem_binders {d n : Node} : n ∈ d.binders ↔ d.Contains n ∧ n.isBinder = true := by
  rw [binders, List.mem_filter, mem_subtrees]

/-- Where the nodes of a tree that bind names stand. -/
def binderPlaces (d : Node) : List Place := d.binders.map place

theorem binderPlaces_of_isBinder {n : Node} (h : n.isBinder = true) :
    n.binderPlaces = n.place :: n.children.flatMap binderPlaces := by
  rw [binderPlaces, binders, subtrees_eq, List.filter_cons_of_pos h, List.filter_flatMap,
    List.map_cons, List.map_flatMap]
  rfl

theorem binderPlaces_of_not_isBinder {n : Node} (h : n.isBinder = false) :
    n.binderPlaces = n.children.flatMap binderPlaces := by
  rw [binderPlaces, binders, subtrees_eq, List.filter_cons_of_neg (by simp [h]), List.filter_flatMap,
    List.map_flatMap]
  rfl

theorem binderPlaces_eq_nil {n : Node} (h : n.isBinder = false)
    (hc : ∀ c ∈ n.children, c.binderPlaces = []) : n.binderPlaces = [] := by
  rw [binderPlaces_of_not_isBinder h]
  exact List.flatMap_eq_nil_iff.mpr hc

theorem IsExpression.binderPlaces_eq {N : String → Prop} {e : Node} (h : e.IsExpression N) :
    e.binderPlaces = [] := by
  induction h with
  | literal | reference => rfl
  | group _ ih | item _ _ ih => exact binderPlaces_eq_nil rfl (List.forall_mem_singleton.mpr ih)
  | binary _ _ _ _ _ hl hr =>
    exact binderPlaces_eq_nil rfl (List.forall_mem_cons.mpr ⟨hl, List.forall_mem_singleton.mpr hr⟩)
  | call _ _ ih => exact binderPlaces_eq_nil rfl ih

theorem IsOptional.binderPlaces_eq {N : String → Prop} {e : Node} (h : e.IsOptional N) :
    e.binderPlaces = [] := by
  rcases h with rfl | h
  · rfl
  · exact h.binderPlaces_eq

end Node

/-! ## Binders in a text -/

namespace Grammar

variable {N : String → Prop}

/-- The binders of `n` stand at places of lexemes, in order. -/
def BindersAmong (n : Node) (ls : List Lexeme) : Prop :=
  n.binderPlaces.Sublist (ls.map Lexeme.place)

theorem bindersAmong_of_eq_nil {e : Node} {ls : List Lexeme} (h : e.binderPlaces = []) :
    BindersAmong e ls := by
  rw [BindersAmong, h]
  exact List.nil_sublist _

theorem bindersAmong_block {ss : List Spelled} (h : ∀ s ∈ ss, BindersAmong s.1 s.2) :
    ((ss.map Prod.fst).flatMap Node.binderPlaces).Sublist
      ((ss.flatMap Prod.snd).map Lexeme.place) := by
  induction ss with
  | nil => exact .slnil
  | cons s ss ih =>
    obtain ⟨hs, hss⟩ := List.forall_mem_cons.mp h
    rw [List.map_cons, List.flatMap_cons, List.flatMap_cons, List.map_append]
    exact hs.append (ih hss)

/-- A block of statements that stands somewhere among other lexemes. -/
theorem bindersAmong_within {ss : List Spelled} (ls : List Lexeme) (h : ∀ s ∈ ss, BindersAmong s.1 s.2)
    (hls : ss.flatMap Prod.snd <:+: ls) :
    ((ss.map Prod.fst).flatMap Node.binderPlaces).Sublist (ls.map Lexeme.place) :=
  (bindersAmong_block h).trans (hls.sublist.map _)

theorem SpelledCase.bindersAmong {k : SpelledCase} (hv : k.value.1.binderPlaces = [])
    (h : ∀ s ∈ k.block, BindersAmong s.1 s.2) : BindersAmong k.node k.lexemes := by
  rw [BindersAmong, SpelledCase.node, Node.binderPlaces_of_not_isBinder rfl, Node.children,
    List.flatMap_cons, hv]
  exact bindersAmong_within _ h ⟨⟨.word "CASE", k.place⟩ :: k.value.2 ++ [⟨.mark ":", k.colon⟩], [],
    by simp [SpelledCase.lexemes]⟩

theorem SpellsStatement.bindersAmong {s : Node} {ls : List Lexeme} (h : SpellsStatement N s ls) :
    BindersAmong s ls := by
  induction h with
  | declaration _ _ hv =>
    rw [BindersAmong, Node.binderPlaces_of_isBinder rfl, Node.children, List.flatMap_singleton,
      hv.isOptional.binderPlaces_eq]
    exact .cons_cons _ (List.nil_sublist _)
  | @switch c cls p q r ks default hc hvalues _ _ hblocks hdefault =>
    have hitems : ∀ s ∈ (ks.map fun k => (k.node, k.lexemes)) ++
        [(.case .missing (default.map Prod.fst) q, ⟨.word "DEFAULT", q⟩ :: default.flatMap Prod.snd)],
        BindersAmong s.1 s.2 := by
      refine List.forall_mem_append.mpr ⟨List.forall_mem_map.mpr fun k hk => ?_,
        List.forall_mem_singleton.mpr ?_⟩
      · exact SpelledCase.bindersAmong (hvalues k hk).isExpression.1.binderPlaces_eq (hblocks k hk)
      · rw [BindersAmong, Node.binderPlaces_of_not_isBinder rfl]
        exact bindersAmong_within (⟨.word "DEFAULT", q⟩ :: default.flatMap Prod.snd) hdefault
          ⟨[⟨.word "DEFAULT", q⟩], [], by simp⟩
    have hall := bindersAmong_within (⟨.word "SWITCH", p⟩ :: cls ++
        ks.flatMap SpelledCase.lexemes ++ ⟨.word "DEFAULT", q⟩ :: default.flatMap Prod.snd ++
        [⟨.word "END", r⟩]) hitems
      ⟨⟨.word "SWITCH", p⟩ :: cls, [⟨.word "END", r⟩], by simp [List.flatMap_map]⟩
    rw [List.map_append, List.map_map] at hall
    rwa [BindersAmong, Node.binderPlaces_of_not_isBinder rfl, Node.children, List.flatMap_cons,
      hc.isExpression.1.binderPlaces_eq]
  | @conditional c cls els p q r ts es hc _ _ hels hts hes =>
    have hthen := bindersAmong_within
      (⟨.word "IF", p⟩ :: cls ++ ⟨.word "DO", q⟩ :: ts.flatMap Prod.snd) hts
      ⟨⟨.word "IF", p⟩ :: cls ++ [⟨.word "DO", q⟩], [], by simp⟩
    have helse : ((es.map Prod.fst).flatMap Node.binderPlaces).Sublist
        (List.map Lexeme.place (els ++ [⟨.word "END", r⟩])) := by
      rcases hels with ⟨rfl, rfl⟩ | ⟨p', rfl⟩
      · exact List.nil_sublist _
      · exact bindersAmong_within
          (⟨.word "ELSE", p'⟩ :: es.flatMap Prod.snd ++ [⟨.word "END", r⟩]) hes
          ⟨[⟨.word "ELSE", p'⟩], [⟨.word "END", r⟩], rfl⟩
    rw [BindersAmong, Node.binderPlaces_of_not_isBinder rfl, Node.children, List.flatMap_cons,
      hc.isExpression.1.binderPlaces_eq, List.nil_append, List.flatMap_append,
      List.append_assoc _ els, List.map_append]
    exact hthen.append helse
  | @whileLoop c cls p q r ss hc _ hss =>
    rw [BindersAmong, Node.binderPlaces_of_not_isBinder rfl, Node.children, List.flatMap_cons,
      hc.isExpression.1.binderPlaces_eq]
    exact bindersAmong_within _ hss
      ⟨⟨.word "WHILE", p⟩ :: cls ++ [⟨.word "DO", q⟩], [⟨.word "END", r⟩], by simp⟩
  | returning he | expressionStatement he =>
    exact bindersAmong_of_eq_nil (Node.binderPlaces_eq_nil rfl
      (List.forall_mem_singleton.mpr he.isExpression.1.binderPlaces_eq))
  | assignment he hv =>
    exact bindersAmong_of_eq_nil (Node.binderPlaces_eq_nil rfl (List.forall_mem_cons.mpr
      ⟨he.isExpression.1.binderPlaces_eq,
        List.forall_mem_singleton.mpr hv.isExpression.1.binderPlaces_eq⟩))

theorem SpellsGlobal.bindersAmong {g : Node} {ls : List Lexeme} (h : SpellsGlobal N g ls) :
    BindersAmong g ls := by
  have hvalue {name typeName mutable value b p t ls'} (hv : value.binderPlaces = []) :
      BindersAmong (.global name typeName mutable value b p) (⟨t, p⟩ :: ls') := by
    rw [BindersAmong, Node.binderPlaces_of_isBinder rfl, Node.children, List.flatMap_singleton, hv]
    exact .cons_cons _ (List.nil_sublist _)
  cases h with
  | list es _ _ hes _ =>
    exact hvalue (Node.binderPlaces_eq_nil rfl
      (forall_mem_map_fst fun a ha => (hes a ha).isExpression.1.binderPlaces_eq))
  | mutable _ _ hv => exact hvalue hv.isOptional.binderPlaces_eq
  | immutable _ _ hv => exact hvalue hv.isExpression.1.binderPlaces_eq

theorem SpellsFunction.bindersAmong {f : Node} {ls : List Lexeme} (h : SpellsFunction N f ls) :
    BindersAmong f ls := by
  cases h with
  | @function s returnName ls rls p q₁ q₂ q₃ q₄ q₅ xs ss _ _ _ _ hss =>
    rw [BindersAmong, Node.binderPlaces_of_isBinder rfl]
    refine .cons_cons _ (bindersAmong_within _ (fun s hs => (hss s hs).bindersAmong) ?_)
    exact ⟨⟨.name s, q₁⟩ :: ⟨.mark "(", q₂⟩ :: ls ++ ⟨.mark ")", q₃⟩ :: rls ++ [⟨.word "DO", q₄⟩],
      [⟨.word "END", q₅⟩], by simp⟩

theorem SpellsProgram.bindersAmong {t : Node} {ls : List Lexeme} (h : SpellsProgram N t ls) :
    BindersAmong t ls := by
  cases h with
  | source gs fs hgs hfs =>
    rw [BindersAmong, Node.binderPlaces_of_not_isBinder rfl, Node.children, List.flatMap_append,
      List.map_append]
    exact (bindersAmong_block fun g hg => (hgs g hg).bindersAmong).append
      (bindersAmong_block fun f hf => (hfs f hf).bindersAmong)

/-! ## Places -/

/-- A text goes on behind where it begins. -/
theorem place_of_mem_locateFrom {line column : Nat} {cs : List Char} {g : Glyph}
    (h : g ∈ locateFrom line column cs) :
    ∃ l c, g.place = .known l c ∧ (line < l ∨ line = l ∧ column ≤ c) := by
  induction cs generalizing line column with
  | nil => cases h
  | cons c cs ih =>
    rcases List.mem_cons.mp h with rfl | h
    · exact ⟨line, column, rfl, .inr ⟨rfl, Nat.le_refl _⟩⟩
    · split at h
      · obtain ⟨l, c, hg, hlc⟩ := ih h
        exact ⟨l, c, hg, by omega⟩
      · obtain ⟨l, c, hg, hlc⟩ := ih h
        exact ⟨l, c, hg, by omega⟩

theorem nodup_places_locateFrom (line column : Nat) (cs : List Char) :
    ((locateFrom line column cs).map Glyph.place).Nodup := by
  induction cs generalizing line column with
  | nil => exact List.nodup_nil
  | cons c cs ih =>
    rw [locateFrom, List.map_cons, List.nodup_cons]
    refine ⟨fun hmem => ?_, ?_⟩
    · obtain ⟨g, hg, hplace⟩ := List.mem_map.mp hmem
      have hlater : ∃ l c, g.place = .known l c ∧ (line < l ∨ line = l ∧ column < c) := by
        split at hg
        · obtain ⟨l, c, hg, hlc⟩ := place_of_mem_locateFrom hg
          exact ⟨l, c, hg, by omega⟩
        · obtain ⟨l, c, hg, hlc⟩ := place_of_mem_locateFrom hg
          exact ⟨l, c, hg, by omega⟩
      obtain ⟨l, c, hg, hlc⟩ := hlater
      have hsame : (line : Int) = l ∧ (column : Int) = c := by simpa [Place.known] using hplace.symm.trans hg
      omega
    · split
      · exact ih ..
      · exact ih ..

/-- Lexemes of a text stand at different places. -/
theorem Reads.nodup_places {E : Token → List Glyph → Prop} {text : String} {rest : List Glyph}
    {ls : List Lexeme} (h : Reads E (locate text) ls rest) : (ls.map Lexeme.place).Nodup :=
  h.places_sublist.nodup (nodup_places_locateFrom ..)

end Grammar

/-! ## Binders that are analyzed -/

namespace Typing

variable {S : Store Unit} {φ ψ : Frame} {n m : ScopeId}

theorem HasType.binderPlaces {Γ : Context} {e e' : Node} {τ : Ty} (h : HasType Γ e e' τ) :
    e.binderPlaces = [] ∧ e'.binderPlaces = [] := by
  induction h with
  | literal | reference => exact ⟨rfl, rfl⟩
  | group _ _ ih | item _ _ ih =>
    exact ⟨Node.binderPlaces_eq_nil rfl (List.forall_mem_singleton.mpr ih.1),
      Node.binderPlaces_eq_nil rfl (List.forall_mem_singleton.mpr ih.2)⟩
  | binary _ _ _ hl hr =>
    exact ⟨Node.binderPlaces_eq_nil rfl
        (List.forall_mem_cons.mpr ⟨hl.1, List.forall_mem_singleton.mpr hr.1⟩),
      Node.binderPlaces_eq_nil rfl
        (List.forall_mem_cons.mpr ⟨hl.2, List.forall_mem_singleton.mpr hr.2⟩)⟩
  | call as _ _ _ ih | list _ as _ _ ih =>
    exact ⟨Node.binderPlaces_eq_nil rfl (List.forall_mem_map.mpr fun a ha => (ih a ha).1),
      Node.binderPlaces_eq_nil rfl (List.forall_mem_map.mpr fun a ha => (ih a ha).2)⟩

theorem Initial.binderPlaces {Γ : Context} {typeName : Name} {value value' : Node} {τ : Ty}
    (h : Initial Γ typeName value value' τ) : value.binderPlaces = [] ∧ value'.binderPlaces = [] := by
  cases h with
  | inferred h | checked _ h => exact h.binderPlaces
  | named => exact ⟨rfl, rfl⟩

theorem Checks.binderPlaces {R : Ty} {Γ : Context} {ss ss' : List Node}
    (h : Checks S R Γ n ss ss' m) :
    ss.flatMap Node.binderPlaces = ss'.flatMap Node.binderPlaces := by
  induction h with
  | nil => rfl
  | expressionStatement _ he _ ih | returning he _ _ ih =>
    rw [List.flatMap_cons, List.flatMap_cons, ih, Node.binderPlaces_of_not_isBinder rfl,
      Node.binderPlaces_of_not_isBinder rfl, Node.children, Node.children, List.flatMap_singleton,
      List.flatMap_singleton, he.binderPlaces.1, he.binderPlaces.2]
  | declaration hi _ _ _ ih =>
    rw [List.flatMap_cons, List.flatMap_cons, ih, Node.binderPlaces_of_isBinder rfl,
      Node.binderPlaces_of_isBinder rfl, Node.children, Node.children, List.flatMap_singleton,
      List.flatMap_singleton, hi.binderPlaces.1, hi.binderPlaces.2]
    rfl
  | assignment _ _ hr hv _ _ ih =>
    rw [List.flatMap_cons, List.flatMap_cons, ih, Node.binderPlaces_of_not_isBinder rfl,
      Node.binderPlaces_of_not_isBinder rfl]
    simp only [Node.children, List.flatMap_cons, hr.binderPlaces, hv.binderPlaces]
  | conditional hc _ _ _ hts hes ih =>
    rw [List.flatMap_cons, List.flatMap_cons, ih, Node.binderPlaces_of_not_isBinder rfl,
      Node.binderPlaces_of_not_isBinder rfl, Node.children, Node.children, List.flatMap_cons,
      List.flatMap_cons, List.flatMap_append, List.flatMap_append, hts, hes, hc.binderPlaces.1,
      hc.binderPlaces.2]
  | switch ks default hc hks hdefault hdefault' _ _ _ hblocks ih =>
    have hcases : ((ks ++ [default]).map TypedCase.plain).flatMap Node.binderPlaces =
        ((ks ++ [default]).map TypedCase.filled).flatMap Node.binderPlaces := by
      rw [List.flatMap_map, List.flatMap_map]
      refine List.flatMap_congr fun k hk => ?_
      have hvalue : k.value.binderPlaces = [] ∧ k.value'.binderPlaces = [] := by
        rcases List.mem_append.mp hk with hk | hk
        · obtain ⟨σ, hσ, -⟩ := hks k hk
          exact hσ.binderPlaces
        · rw [List.mem_singleton.mp hk, hdefault, hdefault']
          exact ⟨rfl, rfl⟩
      rw [TypedCase.plain, TypedCase.filled, Node.binderPlaces_of_not_isBinder rfl,
        Node.binderPlaces_of_not_isBinder rfl, Node.children, Node.children, List.flatMap_cons,
        List.flatMap_cons, hvalue.1, hvalue.2, hblocks k hk]
    rw [List.flatMap_cons, List.flatMap_cons, ih, Node.binderPlaces_of_not_isBinder rfl,
      Node.binderPlaces_of_not_isBinder rfl, Node.children, Node.children, List.flatMap_cons,
      List.flatMap_cons, hcases, hc.binderPlaces.1, hc.binderPlaces.2]
  | whileLoop hc _ _ hts ih =>
    rw [List.flatMap_cons, List.flatMap_cons, ih, Node.binderPlaces_of_not_isBinder rfl,
      Node.binderPlaces_of_not_isBinder rfl, Node.children, Node.children, List.flatMap_cons,
      List.flatMap_cons, hts, hc.binderPlaces.1, hc.binderPlaces.2]

theorem ChecksGlobals.binderPlaces {gs gs' : List Node} (h : ChecksGlobals S φ gs gs' ψ) :
    gs.flatMap Node.binderPlaces = gs'.flatMap Node.binderPlaces := by
  induction h with
  | nil => rfl
  | global hi _ _ _ ih =>
    rw [List.flatMap_cons, List.flatMap_cons, ih, Node.binderPlaces_of_isBinder rfl,
      Node.binderPlaces_of_isBinder rfl, Node.children, Node.children, List.flatMap_singleton,
      List.flatMap_singleton, hi.binderPlaces.1, hi.binderPlaces.2]
    rfl

theorem ChecksFunctions.binderPlaces {fs fs' : List Node} (h : ChecksFunctions S φ n fs fs' ψ) :
    fs.flatMap Node.binderPlaces = fs'.flatMap Node.binderPlaces := by
  induction h with
  | nil => rfl
  | function _ _ _ _ _ _ hbody _ ih =>
    rw [List.flatMap_cons, List.flatMap_cons, ih, Node.binderPlaces_of_isBinder rfl,
      Node.binderPlaces_of_isBinder rfl, Node.children, Node.children, hbody.binderPlaces]
    rfl

/-- The analysis leaves all binders where they are. -/
theorem binderPlaces_of_wellTyped {t d : Node} (h : t.WellTyped S d) :
    t.binderPlaces = d.binderPlaces := by
  cases h with
  | source _ hgs hfs _ _ =>
    rw [Node.binderPlaces_of_not_isBinder rfl, Node.binderPlaces_of_not_isBinder rfl, Node.children,
      Node.children, List.flatMap_append, List.flatMap_append, hgs.binderPlaces, hfs.binderPlaces]

end Typing

end PlcLang
