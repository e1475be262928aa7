import PlcLang.Proofs.Grammar.Sound
import PlcLang.Proofs.Text.Lines

/-!
# Where nodes stand

A node stands where its first token stands, so that the order of the tokens is the order of the
nodes in the tree.

* `Node.series`: the children of a node that follow one another.
* `Node.InOrder`: what the places of a node and of its children have to do with each other.
* `Node.Laid`, `Placed`: a node, and all nodes of a tree, among the lexemes that spell them.
* `Node.parse?_inOrder`: the nodes of parsed trees stand on tokens of the text and in order.
-/

namespace PlcLang

open Grammar

namespace Node

/-! ## Order in a tree -/

/-- The children of a node that follow one another: operands, arguments, elements, statements,
cases, and functions after globals. -/
def series : Node → List Node
  | binary _ l r _ _ | assignment l r _ => [l, r]
  | call _ es _ _ _ | listLiteral es _ _ => es
  | conditional _ ts es _ => ts ++ es
  | case _ ss _ | whileLoop _ ss _ | function _ _ _ _ ss _ _ => ss
  | switch _ cs _ => cs
  | source gs fs => gs ++ fs
  | _ => []

/-- A node and its children stand in order. -/
structure InOrder (n : Node) : Prop where
  /-- No child stands before its parent. -/
  children : ∀ m ∈ n.children, ¬ m.place.Before n.place
  /-- Of the children that follow one another, each stands before all later ones. -/
  series : (n.series.map place).Pairwise Place.Before
  /-- The left operand stands where the operation stands, the right one after it. -/
  operands : ∀ {op l r ty p}, n = .binary op l r ty p → l.place = p ∧ p.Before r.place

/-- Lexemes at which a node and its children stand, from the place of the node on. -/
structure Laid (n : Node) (ls : List Lexeme) : Prop where
  /-- The node stands where the first lexeme stands. -/
  head : ∃ x ks, ls = x :: ks ∧ x.place = n.place
  /-- A child stands where one of the lexemes stands. -/
  children : ∀ m ∈ n.children, m = .missing ∨ m.place ∈ ls.map Lexeme.place
  /-- Children that follow one another stand at lexemes in this order. -/
  series : (n.series.map place).Sublist (ls.map Lexeme.place)
  /-- The left operand stands where the operation stands. -/
  operands : ∀ {op l r ty p}, n = .binary op l r ty p → l.place = p

variable {N : String → Prop} {n m t : Node} {ls ks : List Lexeme}

theorem not_before_unknown {p : Place} : ¬ p.Before .unknown := by
  rintro ⟨_, _, _, _, -, h, -⟩
  cases h

theorem not_unknown_before {p : Place} : ¬ Place.unknown.Before p := by
  rintro ⟨_, _, _, _, h, -, -⟩
  cases h

/-- A node is in order if its lexemes are. -/
theorem Laid.inOrder (h : n.Laid ls) (hls : (ls.map Lexeme.place).Pairwise Place.Before) :
    n.InOrder where
  children m hm := by
    obtain ⟨x, ks, rfl, hx⟩ := h.head
    rcases h.children m hm with rfl | hm
    · exact not_unknown_before
    · rw [List.map_cons, hx] at hm hls
      rcases List.mem_cons.mp hm with he | hm
      · exact he ▸ Place.Before.irrefl _
      · exact (List.rel_of_pairwise_cons hls hm).asymm
  series := hls.sublist h.series
  operands := by
    rintro op l r ty p rfl
    have hl := h.operands rfl
    refine ⟨hl, hl ▸ ?_⟩
    exact List.rel_of_pairwise_cons (hls.sublist h.series) List.mem_cons_self

end Node

namespace Grammar

open Node

/-! ## Trees among lexemes -/

/-- The tree stands where the first lexeme stands, and all nodes in it stand among the lexemes. -/
structure Placed (n : Node) (ls : List Lexeme) : Prop where
  /-- The tree stands where the first lexeme stands. -/
  head : ∃ x ks, ls = x :: ks ∧ x.place = n.place
  /-- Every node stands, with its children, among the lexemes. -/
  nodes : n.Everywhere fun m => m.isPresent = true → ∃ ks, ks.Sublist ls ∧ m.Laid ks

variable {N : String → Prop} {n m t : Node} {ls ks : List Lexeme}

theorem everywhere_missing {P : Node → Prop} (h : P .missing) : Node.missing.Everywhere P :=
  everywhere_iff.mpr ⟨h, List.forall_mem_nil _⟩

/-- The nodes of a part stand among the lexemes of the whole. -/
theorem Placed.nodes_mono (h : Placed n ks) (hks : ks.Sublist ls) :
    n.Everywhere fun m => m.isPresent = true → ∃ ks, ks.Sublist ls ∧ m.Laid ks := by
  intro m hm hpresent
  obtain ⟨js, hjs, hlaid⟩ := h.nodes m hm hpresent
  exact ⟨js, hjs.trans hks, hlaid⟩

theorem places_sublist_flatMap {parts : List Spelled} (h : ∀ x ∈ parts, Placed x.1 x.2) :
    ((parts.map Prod.fst).map place).Sublist ((parts.flatMap Prod.snd).map Lexeme.place) := by
  induction parts with
  | nil => exact .refl _
  | cons x parts ih =>
    obtain ⟨hx, hparts⟩ := List.forall_mem_cons.mp h
    obtain ⟨y, ks, hy, hplace⟩ := hx.head
    rw [List.flatMap_cons, hy, List.map_append, List.map_cons, List.map_cons, List.map_cons, hplace]
    exact .cons_cons _ ((ih hparts).trans (List.sublist_append_right _ _))

/-- A node stands among lexemes if its parts do, each among lexemes of its own, and the first operand where
an operation stands. -/
theorem Placed.of_operands (parts : List Spelled)
    (hhead : ∃ x ks, ls = x :: ks ∧ x.place = n.place) (hplaced : ∀ x ∈ parts, Placed x.1 x.2)
    (hls : (parts.flatMap Prod.snd).Sublist ls)
    (hchildren : ∀ m ∈ n.children, m = .missing ∨ m ∈ parts.map Prod.fst)
    (hseries : n.series.Sublist (parts.map Prod.fst))
    (hleft : ∀ op l r ty p, n = .binary op l r ty p → l.place = p) : Placed n ls := by
  have hplaces := (places_sublist_flatMap hplaced).trans (hls.map Lexeme.place)
  refine ⟨hhead, everywhere_iff.mpr ⟨fun _ => ⟨ls, .refl _, hhead, fun m hm => ?_,
    (hseries.map place).trans hplaces, hleft _ _ _ _ _⟩, fun m hm => ?_⟩⟩
  · exact (hchildren m hm).imp_right fun hm => hplaces.subset (List.mem_map_of_mem hm)
  · rcases hchildren m hm with rfl | hm
    · exact everywhere_missing nofun
    · obtain ⟨x, hx, rfl⟩ := List.mem_map.mp hm
      exact (hplaced x hx).nodes_mono ((List.sublist_flatten_of_mem (List.mem_map_of_mem hx)).trans hls)

/-- Of other nodes than operations, no part needs to stand where the node stands. -/
theorem Placed.of_parts (parts : List Spelled) (hhead : ∃ x ks, ls = x :: ks ∧ x.place = n.place)
    (hplaced : ∀ x ∈ parts, Placed x.1 x.2) (hls : (parts.flatMap Prod.snd).Sublist ls)
    (hchildren : ∀ m ∈ n.children, m = .missing ∨ m ∈ parts.map Prod.fst)
    (hseries : n.series.Sublist (parts.map Prod.fst)) (hbinary : n.isBinary = false) : Placed n ls := by
  refine .of_operands parts hhead hplaced hls hchildren hseries ?_
  rintro _ _ _ _ _ rfl
  cases hbinary

/-- A node with one child stands among lexemes if the child does. -/
theorem Placed.of_part (h : Placed m ks) (hhead : ∃ x ks, ls = x :: ks ∧ x.place = n.place)
    (hks : ks.Sublist ls) (hchildren : n.children = [m]) (hseries : n.series = []) : Placed n ls := by
  refine .of_operands [(m, ks)] hhead (List.forall_mem_singleton.mpr h) ?_
    (fun _ hc => .inr (show _ ∈ [m] from hchildren ▸ hc)) (hseries ▸ List.nil_sublist _) ?_
  · rw [List.flatMap_singleton]
    exact hks
  · rintro _ _ _ _ _ rfl
    cases hchildren

/-! ## Expressions -/

theorem AfterCommas.flatten_sublist {items : List (List Lexeme)} (h : AfterCommas items ls) :
    items.flatten.Sublist ls := by
  induction h with
  | nil => exact .refl _
  | cons p _ ih =>
    rw [List.flatten_cons]
    exact ((List.Sublist.refl _).append ih).cons _

theorem PerhapsSeparated.flatten_sublist {items : List (List Lexeme)}
    (h : PerhapsSeparated items ls) : items.flatten.Sublist ls := by
  cases h with
  | leading h => exact h.flatten_sublist
  | plain h => exact (List.Sublist.refl _).append h.flatten_sublist

/-- Every operation of a chain stands where its first operand stands. -/
theorem Placed.joined {p : Place} {first : Node} (os : List Operation) (hp : first.place = p)
    (hfirst : Placed first ls) (hos : ∀ o ∈ os, Placed o.operand.1 o.operand.2) :
    Placed (joined p first (os.map fun o => (o.operator, o.operand.1)))
      (ls ++ os.flatMap Operation.lexemes) := by
  induction os generalizing first ls with
  | nil =>
    rw [List.flatMap_nil, List.append_nil]
    exact hfirst
  | cons o os ih =>
    obtain ⟨ho, hos⟩ := List.forall_mem_cons.mp hos
    rw [List.flatMap_cons, ← List.append_assoc]
    refine ih rfl ?_ hos
    obtain ⟨x, ks, rfl, hx⟩ := hfirst.head
    refine .of_operands [(first, x :: ks), o.operand] ⟨x, _, rfl, hx.trans hp⟩
      (by simp [hfirst, ho]) ?_ (fun m hm => .inr hm) (.refl _) ?_
    · simp [Operation.lexemes]
    · rintro _ _ _ _ _ ⟨⟩
      exact hp

/-- **An expression stands among the lexemes that spell it.** -/
theorem Spells.placed {l : Option Level} {e : Node} (h : Spells N l e ls) : Placed e ls := by
  induction h with
  | literal =>
    exact .of_parts [] ⟨_, _, rfl, rfl⟩ (List.forall_mem_nil _) (List.nil_sublist _)
      (List.forall_mem_nil _) (.refl _) rfl
  | group _ ih =>
    refine ih.of_part ⟨_, _, rfl, rfl⟩ ?_ rfl rfl
    exact (List.sublist_cons_self _ _).trans (List.sublist_append_left _ _)
  | reference =>
    exact .of_parts [] ⟨_, _, rfl, rfl⟩ (List.forall_mem_nil _) (List.nil_sublist _)
      (fun m hm => .inl (List.mem_singleton.mp hm)) (.refl _) rfl
  | item _ _ ih =>
    refine ih.of_part ⟨_, _, rfl, rfl⟩ ?_ rfl rfl
    exact ((List.sublist_cons_self _ _).cons _).trans (List.sublist_append_left _ _)
  | call as _ _ hls ih =>
    refine .of_parts as ⟨_, _, rfl, rfl⟩ ih ?_ (fun m hm => .inr hm) (.refl _) rfl
    exact ((hls.flatten_sublist.cons _).cons _).trans (List.sublist_append_left _ _)
  | chain os _ _ _ ih hos => exact ih.joined os rfl hos

/-! ## Statements -/

/-- A value that may be absent, as a part. -/
theorem SpellsValue.exists_parts {value : Node} (h : SpellsValue N value ls) :
    ∃ parts : List Spelled, (∀ x ∈ parts, Placed x.1 x.2) ∧ parts.flatMap Prod.snd = ls.tail ∧
      ∀ m ∈ [value], m = .missing ∨ m ∈ parts.map Prod.fst := by
  cases h with
  | absent => exact ⟨[], List.forall_mem_nil _, rfl, fun m hm => .inl (List.mem_singleton.mp hm)⟩
  | @present _ ls _ h =>
    exact ⟨[(value, ls)], List.forall_mem_singleton.mpr h.placed, List.flatMap_singleton ..,
      fun m hm => .inr hm⟩

theorem SpelledCase.placed {k : SpelledCase} (hvalue : Placed k.value.1 k.value.2)
    (hblock : ∀ s ∈ k.block, Placed s.1 s.2) : Placed k.node k.lexemes := by
  refine .of_parts (k.value :: k.block) ⟨_, _, rfl, rfl⟩ (List.forall_mem_cons.mpr ⟨hvalue, hblock⟩) ?_
    (fun m hm => .inr hm) (List.sublist_cons_self _ _) rfl
  exact (List.sublist_cons_self _ _).append (List.sublist_cons_self _ _)

/-- **A statement stands among the lexemes that spell it.** -/
theorem SpellsStatement.placed {s : Node} (h : SpellsStatement N s ls) : Placed s ls := by
  induction h with
  | declaration _ _ hvalue =>
    obtain ⟨parts, hparts, hls, hchildren⟩ := hvalue.exists_parts
    refine .of_parts parts ⟨_, _, rfl, rfl⟩ hparts ?_ hchildren (List.nil_sublist _) rfl
    rw [hls]
    exact ((List.tail_sublist _).trans (List.sublist_append_right _ _)).trans (List.sublist_append_left _ _)
  | @switch c cls p q r ks default hc hvalues _ _ hblocks hdefault =>
    have hlast : Placed (.case .missing (default.map Prod.fst) q)
        (⟨.word "DEFAULT", q⟩ :: default.flatMap Prod.snd) :=
      .of_parts default ⟨_, _, rfl, rfl⟩ hdefault (List.sublist_cons_self _ _)
        (fun m hm => List.mem_cons.mp hm) (.refl _) rfl
    have hcases : ∀ x ∈ ks.map SpelledCase.spelled, Placed x.1 x.2 := by
      intro x hx
      obtain ⟨k, hk, rfl⟩ := List.mem_map.mp hx
      exact SpelledCase.placed (hvalues k hk).placed (hblocks k hk)
    have hnodes : (ks.map SpelledCase.spelled).map Prod.fst = ks.map SpelledCase.node := List.map_map
    have hlexemes : (ks.map SpelledCase.spelled).flatMap Prod.snd = ks.flatMap SpelledCase.lexemes :=
      List.flatMap_map ..
    refine .of_parts ((c, cls) :: (ks.map SpelledCase.spelled ++ [(_, _)])) ⟨_, _, rfl, rfl⟩
      (List.forall_mem_cons.mpr ⟨hc.placed, List.forall_mem_append.mpr
        ⟨hcases, List.forall_mem_singleton.mpr hlast⟩⟩) ?_ (fun m hm => .inr ?_) ?_ rfl
    · rw [List.flatMap_cons, List.flatMap_append, List.flatMap_singleton, hlexemes, ← List.append_assoc]
      exact (((List.sublist_cons_self _ _).append (.refl _)).append (.refl _)).trans
        (List.sublist_append_left _ _)
    · rwa [List.map_cons, List.map_append, hnodes]
    · rw [List.map_cons, List.map_append, hnodes]
      exact List.sublist_cons_self _ _
  | @conditional c cls els p q r ts es hc _ _ hels hts hes =>
    have helse : (es.flatMap Prod.snd).Sublist els := by
      rcases hels with ⟨rfl, rfl⟩ | ⟨p', rfl⟩
      · exact .refl _
      · exact List.sublist_cons_self _ _
    refine .of_parts ((c, cls) :: (ts ++ es)) ⟨_, _, rfl, rfl⟩
      (List.forall_mem_cons.mpr ⟨hc.placed, List.forall_mem_append.mpr ⟨hts, hes⟩⟩) ?_
      (fun m hm => .inr ?_) ?_ rfl
    · rw [List.flatMap_cons, List.flatMap_append, ← List.append_assoc]
      exact (((List.sublist_cons_self _ _).append (List.sublist_cons_self _ _)).append helse).trans
        (List.sublist_append_left _ _)
    · rwa [List.map_cons, List.map_append]
    · rw [List.map_cons, List.map_append]
      exact List.sublist_cons_self _ _
  | @whileLoop c cls _ _ _ ss hc _ hss =>
    refine .of_parts ((c, cls) :: ss) ⟨_, _, rfl, rfl⟩ (List.forall_mem_cons.mpr ⟨hc.placed, hss⟩) ?_
      (fun m hm => .inr hm) (List.sublist_cons_self _ _) rfl
    exact ((List.sublist_cons_self _ _).append (List.sublist_cons_self _ _)).trans
      (List.sublist_append_left _ _)
  | returning he =>
    refine he.placed.of_part ⟨_, _, rfl, rfl⟩ ?_ rfl rfl
    exact (List.sublist_cons_self _ _).trans (List.sublist_append_left _ _)
  | @assignment e ls value vls p q he hvalue =>
    obtain ⟨x, ks, rfl, hx⟩ := he.placed.head
    refine .of_parts [(e, x :: ks), (value, vls)] ⟨_, _, rfl, hx⟩
      (by simp [he.placed, hvalue.placed]) ?_ (fun m hm => .inr hm) (.refl _) rfl
    rw [List.flatMap_cons, List.flatMap_singleton]
    exact ((List.Sublist.refl _).append (List.sublist_cons_self _ _)).trans (List.sublist_append_left _ _)
  | expressionStatement he =>
    obtain ⟨x, ks, rfl, hx⟩ := he.placed.head
    refine he.placed.of_part ⟨_, _, rfl, hx⟩ ?_ rfl rfl
    exact List.sublist_append_left _ _

/-! ## Programs -/

/-- **A global stands among the lexemes that spell it.** -/
theorem SpellsGlobal.placed {g : Node} (h : SpellsGlobal N g ls) : Placed g ls := by
  cases h with
  | @list s t e ls els p _ _ _ _ _ _ _ es _ _ hes hls =>
    -- the list stands where the global stands, at the first word
    refine Placed.of_part (m := .listLiteral (((e, els) :: es).map Prod.fst) none p)
      (.of_parts ((e, els) :: es) ⟨_, _, rfl, rfl⟩ (fun x hx => (hes x hx).placed) ?_
        (fun m hm => .inr hm) (.refl _) rfl) ⟨_, _, rfl, rfl⟩ (.refl _) rfl rfl
    rw [List.flatMap_cons]
    refine ((List.Sublist.append ?_ hls.flatten_sublist).trans (List.sublist_append_left _ _)).cons _
    exact ((((List.sublist_cons_self _ _).cons _).cons _).cons _).cons _
  | mutable _ _ hvalue =>
    obtain ⟨parts, hparts, hls, hchildren⟩ := hvalue.exists_parts
    refine .of_parts parts ⟨_, _, rfl, rfl⟩ hparts ?_ hchildren (List.nil_sublist _) rfl
    rw [hls]
    exact (((((List.tail_sublist _).cons _).cons _).cons _).cons _).trans (List.sublist_append_left _ _)
  | immutable _ _ hvalue =>
    refine hvalue.placed.of_part ⟨_, _, rfl, rfl⟩ ?_ rfl rfl
    exact (((((List.sublist_cons_self _ _).cons _).cons _).cons _).cons _).trans
      (List.sublist_append_left _ _)

/-- **A function stands among the lexemes that spell it.** -/
theorem SpellsFunction.placed {f : Node} (h : SpellsFunction N f ls) : Placed f ls := by
  cases h with
  | function xs ss _ _ _ _ hss =>
    refine .of_parts ss ⟨_, _, rfl, rfl⟩ (fun x hx => (hss x hx).placed) ?_ (fun m hm => .inr hm)
      (.refl _) rfl
    exact ((List.sublist_cons_self _ _).trans (List.sublist_append_right _ _)).trans
      (List.sublist_append_left _ _)

/-- **Whatever is below a program stands among the lexemes that spell it.** -/
theorem SpellsProgram.placed (h : SpellsProgram N t ls) :
    (t.series.map place).Sublist (ls.map Lexeme.place) ∧ ∀ c ∈ t.children,
      c.Everywhere fun m => m.isPresent = true → ∃ ks, ks.Sublist ls ∧ m.Laid ks := by
  cases h with
  | source gs fs hgs hfs =>
    have hplaced : ∀ x ∈ gs ++ fs, Placed x.1 x.2 := List.forall_mem_append.mpr
      ⟨fun g hg => (hgs g hg).placed, fun f hf => (hfs f hf).placed⟩
    have hplaces := places_sublist_flatMap hplaced
    rw [List.map_append, List.flatMap_append] at hplaces
    refine ⟨hplaces, fun c hc => ?_⟩
    rw [children, ← List.map_append] at hc
    obtain ⟨x, hx, rfl⟩ := List.mem_map.mp hc
    rw [← List.flatMap_append]
    exact (hplaced x hx).nodes_mono (List.sublist_flatten_of_mem (List.mem_map_of_mem hx))

end Grammar

/-- A character of the text that is not blank stands at the place. -/
def Place.IsFilled (p : Place) (text : String) : Prop :=
  ∃ l k c, p = .known (l + 1) (k + 1) ∧ charAt (lines text.toList) l k = some c ∧ isBlank c = false

namespace Node

variable {text : String} {n t : Node} {ls : List Lexeme}

/-- What is parsed is spelled by lexemes that follow one another in the text. -/
theorem exists_lexemes (h : parse? text = some t) : ∃ ls, SpellsProgram IsIdentifier t ls ∧
    (ls.map Lexeme.place).Pairwise Place.Before ∧ ∀ p ∈ ls.map Lexeme.place, p.IsFilled text := by
  obtain ⟨ls, rest, hreads, -, hspells⟩ := spells_of_ofGlyphs (parse?_eq_some_iff.mp h)
  obtain ⟨ws, hsub, hplaces, hblank⟩ := hreads.exists_glyphs
  refine ⟨ls, hspells, hplaces ▸ (pairwise_locate text).sublist (hsub.map _), fun p hp => ?_⟩
  rw [← hplaces] at hp
  obtain ⟨g, hg, rfl⟩ := List.mem_map.mp hp
  obtain ⟨l, k, hplace, hchar⟩ := exists_of_mem_locate (hsub.subset hg)
  exact ⟨l, k, g.char, hplace, hchar, hblank g hg⟩

/-- A node below a program is laid among its lexemes. -/
theorem exists_laid (h : SpellsProgram IsIdentifier t ls) (hn : t.Contains n)
    (hpresent : n.isPresent = true) : n = t ∨ ∃ ks, ks.Sublist ls ∧ n.Laid ks := by
  have hall : t.Everywhere fun m => m.isPresent = true → m = t ∨ ∃ ks, ks.Sublist ls ∧ m.Laid ks :=
    everywhere_iff.mpr ⟨fun _ => .inl rfl, fun c hc m hm hpresent =>
      .inr (h.placed.2 c hc m hm hpresent)⟩
  exact hall n hn hpresent

/-- Only programs have no place. -/
theorem isFilled_place (h : parse? text = some t) (hn : t.Contains n) (hpresent : n.isPresent = true)
    (hsource : ∀ gs fs, n ≠ .source gs fs) : n.place.IsFilled text := by
  obtain ⟨ls, hspells, -, hfilled⟩ := exists_lexemes h
  rcases exists_laid hspells hn hpresent with rfl | ⟨ks, hks, hlaid⟩
  · cases hspells
    exact absurd rfl (hsource _ _)
  · obtain ⟨x, ks, rfl, hx⟩ := hlaid.head
    exact hx ▸ hfilled _ (List.mem_map_of_mem (hks.subset List.mem_cons_self))

/-- **The nodes of a parsed tree stand in the order of the text.** Each but the program stands on a
character that is not blank, at a line and a column of the text. -/
theorem parse?_inOrder (h : parse? text = some t) (hn : t.Contains n) (hpresent : n.isPresent = true) :
    n.InOrder ∧ ((∀ gs fs, n ≠ .source gs fs) → n.place.IsFilled text) := by
  refine ⟨?_, isFilled_place h hn hpresent⟩
  obtain ⟨ls, hspells, hpairwise, -⟩ := exists_lexemes h
  rcases exists_laid hspells hn hpresent with rfl | ⟨ks, hks, hlaid⟩
  · have hseries := hpairwise.sublist hspells.placed.1
    cases hspells
    exact ⟨fun _ _ => not_before_unknown, hseries, nofun⟩
  · exact hlaid.inOrder (hpairwise.sublist (hks.map _))

/-- A program over several lines, of which one ends inside a string. -/
def staggered : String :=
  "VAL v: T = \x22a\u2028b\x22;\r\n\r\nFUN main(): T DO\x0C\n" ++
  "IF v DO RETURN 1 + f(v,\r2) * 3; ELSE f(v); END END"

/-- An operation with all its parts: the second argument of the call stands on a line of its own, and
the variable has no place for an offset that it has not. -/
example : ((parse? staggered).bind fun t => t.subtrees.find? isBinary).map
    (fun n => n.subtrees.map place) = some
      [.known 6 16, .known 6 16, .known 6 20, .known 6 20, .known 6 22, .unknown, .known 7 1,
        .known 7 6] := by decide +kernel

theorem parse?_inOrder_staggered : ∃ t n, parse? staggered = some t ∧ t.Contains n ∧
    n.isPresent = true ∧ n.isBinary = true ∧ n.InOrder ∧
      ((∀ gs fs, n ≠ .source gs fs) → n.place.IsFilled staggered) := by
  obtain ⟨⟨_, _⟩, h⟩ := Option.isSome_iff_exists.mp (by decide +kernel :
    ((parse? staggered).bind fun t => (t.subtrees.find? isBinary).map (t, ·)).isSome = true)
  obtain ⟨t, ht, h⟩ := Option.bind_eq_some_iff.mp h
  obtain ⟨n, hn, -⟩ := Option.map_eq_some_iff.mp h
  have hcontains : t.Contains n := mem_subtrees.mp (List.mem_of_find?_eq_some hn)
  have hbinary : n.isBinary = true := List.find?_some hn
  have hpresent : n.isPresent = true := by
    cases n with
    | missing => cases hbinary
    | _ => rfl
  exact ⟨t, n, ht, hcontains, hpresent, hbinary, parse?_inOrder ht hcontains hpresent⟩

end Node

end PlcLang
