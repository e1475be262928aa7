import PlcLang.Proofs.Grammar.Read
import PlcLang.Proofs.Grammar.Spelling

/-!
# What is parsed is spelled

A parser that succeeds has taken lexemes that spell its result.

* `ReadsAs`: what every success of a parser comes with.
* `readsAs_chain`, `readsAs_expression`, `readsAs_statement`: the grammar, rule by rule.
* `Node.spells_of_ofGlyphs`: every tree that is parsed is spelled by the text.
-/

namespace PlcLang.Grammar

/-- Whenever the parser succeeds with `a`, it has taken lexemes that are related to `a`. -/
def ReadsAs {α : Type} (p : Parser α) (Q : α → List Lexeme → Prop) : Prop :=
  ∀ {gs a rest}, p gs = .ok (a, rest) → ∃ ls, Reads Anything gs ls rest ∧ Q a ls

section Sequences

variable {α : Type} {p : Parser α} {Q : α → List Lexeme → Prop} {gs rest : List Glyph}

theorem readsAs_many (hp : ReadsAs p Q) {bound : Nat} {as : List α}
    (h : many p bound gs = .ok (as, rest)) :
    ∃ bs : List (α × List Lexeme), bs.map Prod.fst = as ∧ (∀ b ∈ bs, Q b.1 b.2) ∧
      Reads Anything gs (bs.flatMap Prod.snd) rest := by
  induction bound generalizing gs as with
  | zero =>
    obtain ⟨rfl, rfl⟩ := pure_eq_ok.mp h
    exact ⟨[], rfl, nofun, .nil⟩
  | succ bound ih =>
    simp only [many, commit_eq_ok, bind_eq_ok, pure_eq_ok] at h
    rcases h with ⟨a, gs₁, ha, as, _, has, rfl, rfl⟩ | ⟨-, rfl, rfl⟩
    · obtain ⟨ls, hls, hQ⟩ := hp ha
      obtain ⟨bs, rfl, hbs, hreads⟩ := ih has
      exact ⟨(a, ls) :: bs, rfl, List.forall_mem_cons.mpr ⟨hQ, hbs⟩, hls.append hreads⟩
    · exact ⟨[], rfl, nofun, .nil⟩

theorem readsAs_afterCommas (hp : ReadsAs p Q) {bound : Nat} {as : List α}
    (h : afterCommas p bound gs = .ok (as, rest)) :
    ∃ (bs : List (α × List Lexeme)) (ls : List Lexeme), bs.map Prod.fst = as ∧
      (∀ b ∈ bs, Q b.1 b.2) ∧ AfterCommas (bs.map Prod.snd) ls ∧ Reads Anything gs ls rest := by
  induction bound generalizing gs as with
  | zero =>
    obtain ⟨rfl, rfl⟩ := pure_eq_ok.mp h
    exact ⟨[], [], rfl, nofun, .nil, .nil⟩
  | succ bound ih =>
    simp only [afterCommas, commit_eq_ok, bind_eq_ok, pure_eq_ok] at h
    rcases h with ⟨_, gs₁, hcomma, a, gs₂, ha, as, _, has, rfl, rfl⟩ | ⟨-, rfl, rfl⟩
    · have hcomma := reads_mark (by decide) hcomma
      obtain ⟨ls, hls, hQ⟩ := hp ha
      obtain ⟨bs, rs, rfl, hbs, hcommas, hreads⟩ := ih has
      exact ⟨(a, ls) :: bs, _, rfl, List.forall_mem_cons.mpr ⟨hQ, hbs⟩, .cons _ hcommas,
        (hcomma.append hls).append hreads⟩
    · exact ⟨[], [], rfl, nofun, .nil, .nil⟩

theorem readsAs_perhapsSeparated (hp : ReadsAs p Q) {bound : Nat} {as : List α}
    (h : perhapsSeparated p bound gs = .ok (as, rest)) :
    ∃ (bs : List (α × List Lexeme)) (ls : List Lexeme), bs.map Prod.fst = as ∧
      (∀ b ∈ bs, Q b.1 b.2) ∧ PerhapsSeparated (bs.map Prod.snd) ls ∧ Reads Anything gs ls rest := by
  simp only [perhapsSeparated, commit_eq_ok, bind_eq_ok, pure_eq_ok] at h
  rcases h with ⟨a, gs₁, ha, as, _, has, rfl, rfl⟩ | ⟨-, has⟩
  · obtain ⟨ls, hls, hQ⟩ := hp ha
    obtain ⟨bs, rs, rfl, hbs, hcommas, hreads⟩ := readsAs_afterCommas hp has
    exact ⟨(a, ls) :: bs, ls ++ rs, rfl, List.forall_mem_cons.mpr ⟨hQ, hbs⟩, .plain hcommas,
      hls.append hreads⟩
  · obtain ⟨bs, ls, rfl, hbs, hcommas, hreads⟩ := readsAs_afterCommas hp has
    exact ⟨bs, ls, rfl, hbs, .leading hcommas, hreads⟩

end Sequences

variable {gs rest : List Glyph}

/-! ## Expressions -/

theorem operator_eq_ok {ops : List Operator} {op : Operator}
    (h : operator ops gs = .ok (op, rest)) : op ∈ ops ∧ mark op.symbol gs = .ok ((), rest) := by
  induction ops with
  | nil => cases h
  | cons o ops ih =>
    simp only [operator, commit_eq_ok, pure_eq_ok] at h
    rcases h with ⟨⟨⟩, _, hmark, rfl, rfl⟩ | ⟨-, h⟩
    · exact ⟨List.mem_cons_self, hmark⟩
    · obtain ⟨hmem, hmark⟩ := ih h
      exact ⟨List.mem_cons_of_mem _ hmem, hmark⟩

theorem readsAs_operation {l : Level} {operand : Parser Node}
    (ho : ReadsAs operand (Spells IsIdentifier l.tighter?)) :
    ReadsAs (operation l.operators operand) (SpellsOperation IsIdentifier l) := by
  intro gs r rest h
  simp only [operation, bind_eq_ok, pure_eq_ok] at h
  obtain ⟨op, gs₁, hop, e, _, he, rfl, rfl⟩ := h
  obtain ⟨hmem, hmark⟩ := operator_eq_ok hop
  have hlevel := Level.mem_operators.mp hmem
  obtain ⟨ls, hls, hspells⟩ := ho he
  exact ⟨_, (reads_mark (symbol_mem_marks hlevel) hmark).append hls,
    ⟨op, nextPlace gs, e, ls⟩, rfl, hlevel, hspells⟩

theorem readsAs_chain {bound : Nat} {l : Level} {operand : Parser Node}
    (ho : ReadsAs operand (Spells IsIdentifier l.tighter?)) :
    ReadsAs (chain bound l.operators operand) (Spells IsIdentifier (some l)) := by
  intro gs e rest h
  simp only [chain, bind_eq_ok, here_eq_ok, pure_eq_ok] at h
  obtain ⟨p, _, ⟨rfl, rfl⟩, first, gs₁, hfirst, ops, _, hops, rfl, rfl⟩ := h
  obtain ⟨ls, hls, hspells⟩ := ho hfirst
  obtain ⟨bs, rfl, hbs, hreads⟩ := readsAs_many (readsAs_operation ho) hops
  obtain ⟨os, rfl, hos⟩ := exists_eq_map hbs
  rw [List.map_map, hspells.nextPlace_eq hls]
  rw [List.flatMap_map] at hreads
  exact ⟨_, hls.append hreads,
    .chain os hspells (fun o ho => (hos o ho).1) fun o ho => (hos o ho).2⟩

theorem readsAs_literal {p : Place} {e : Node} (h : literal p gs = .ok (e, rest)) :
    ∃ x v, x.place = nextPlace gs ∧ x.token.value? = some v ∧ v.IsLiteral ∧
      e = .literal v none p ∧ Reads Anything gs [x] rest := by
  simp only [literal, wordlessLiteral, byWord, commit_eq_ok, pure_eq_ok] at h
  rcases h with ⟨⟨⟩, _, hw, rfl, rfl⟩ | ⟨-, h⟩
  · exact ⟨_, _, rfl, rfl, .nil, rfl, reads_word (by decide) hw⟩
  rcases h with ⟨⟨⟩, _, hw, rfl, rfl⟩ | ⟨-, h⟩
  · exact ⟨_, _, rfl, rfl, .boolean true, rfl, reads_word (by decide) hw⟩
  rcases h with ⟨⟨⟩, _, hw, rfl, rfl⟩ | ⟨-, h⟩
  · exact ⟨_, _, rfl, rfl, .boolean false, rfl, reads_word (by decide) hw⟩
  rcases h with ⟨d, _, hd, rfl, rfl⟩ | ⟨-, h⟩
  · obtain ⟨hd, hreads⟩ := reads_decimal hd
    exact ⟨_, _, rfl, rfl, hd, rfl, hreads⟩
  rcases h with ⟨i, _, hi, rfl, rfl⟩ | ⟨-, h⟩
  · exact ⟨_, _, rfl, rfl, .integer i, rfl, reads_integer hi⟩
  rcases h with ⟨s, _, hs, rfl, rfl⟩ | ⟨-, h⟩
  · obtain ⟨c, rfl, hc⟩ := reads_character hs
    exact ⟨_, _, rfl, rfl, .character c, rfl, hc⟩
  rcases h with ⟨s, _, hs, rfl, rfl⟩ | ⟨-, h⟩
  · exact ⟨_, _, rfl, rfl, .string s, rfl, reads_string hs⟩
  · exact absurd h refuse_eq_ok

theorem readsAs_operand {bound : Nat} {inner : Parser Node}
    (hi : ReadsAs inner (Spells IsIdentifier (some .logical))) :
    ReadsAs (operand bound inner) (Spells IsIdentifier none) := by
  intro gs e rest h
  simp only [operand, bind_eq_ok, here_eq_ok, commit_eq_ok, pure_eq_ok] at h
  obtain ⟨p, _, ⟨rfl, rfl⟩, h⟩ := h
  rcases h with ⟨e, _, hliteral, rfl, rfl⟩ | ⟨-, h⟩
  · obtain ⟨x, v, hplace, hv, hl, rfl, hx⟩ := readsAs_literal hliteral
    exact ⟨[x], hx, hplace ▸ .literal hv hl⟩
  rcases h with ⟨⟨⟩, gs₁, hopen, e, gs₂, he, ⟨⟩, _, hclose, rfl, rfl⟩ | ⟨-, s, gs₁, hs, h⟩
  · obtain ⟨ls, hls, hspells⟩ := hi he
    exact ⟨_, ((reads_mark (by decide) hopen).append hls).append (reads_mark (by decide) hclose),
      .group hspells⟩
  obtain ⟨hs, hname⟩ := reads_name hs
  rcases h with ⟨⟨⟩, gs₂, hopen, es, gs₃, hes, ⟨⟩, _, hclose, rfl, rfl⟩ | ⟨-, h⟩
  · obtain ⟨as, ls, rfl, has, hseparated, hls⟩ := readsAs_perhapsSeparated hi hes
    exact ⟨_, ((hname.append (reads_mark (by decide) hopen)).append hls).append
      (reads_mark (by decide) hclose), .call as hs has hseparated⟩
  rcases h with ⟨⟨⟩, gs₂, hopen, e, gs₃, he, ⟨⟩, _, hclose, rfl, rfl⟩ | ⟨-, rfl, rfl⟩
  · obtain ⟨ls, hls, hspells⟩ := hi he
    exact ⟨_, ((hname.append (reads_mark (by decide) hopen)).append hls).append
      (reads_mark (by decide) hclose), .item hs hspells⟩
  · exact ⟨_, hname, .reference hs⟩

theorem readsAs_expression (depth : Nat) :
    ReadsAs (expression depth) (Spells IsIdentifier (some .logical)) := by
  induction depth with
  | zero =>
    intro gs e rest h
    exact absurd h refuse_eq_ok
  | succ depth ih =>
    exact readsAs_chain (l := .logical) <| readsAs_chain (l := .comparison) <|
      readsAs_chain (l := .additive) <| readsAs_chain (l := .multiplicative) <| readsAs_operand ih

/-! ## Statements -/

theorem readsAs_type : ReadsAs (after ":" (some <$> name) none) (SpellsType IsIdentifier) := by
  intro gs t rest h
  simp only [after, commit_eq_ok, map_eq_ok, pure_eq_ok] at h
  rcases h with ⟨⟨⟩, _, hcolon, s, hs, rfl⟩ | ⟨-, rfl, rfl⟩
  · obtain ⟨hs, hname⟩ := reads_name hs
    exact ⟨_, (reads_mark (by decide) hcolon).append hname, .present hs⟩
  · exact ⟨[], .nil, .absent⟩

theorem readsAs_value (depth : Nat) :
    ReadsAs (after "=" (expression depth) .missing) (SpellsValue IsIdentifier) := by
  intro gs e rest h
  simp only [after, commit_eq_ok, pure_eq_ok] at h
  rcases h with ⟨⟨⟩, _, hmark, he⟩ | ⟨-, rfl, rfl⟩
  · obtain ⟨ls, hls, hspells⟩ := readsAs_expression depth he
    exact ⟨_, (reads_mark (by decide) hmark).append hls, .present hspells⟩
  · exact ⟨[], .nil, .absent⟩

section Statements

variable {block : Parser (List Node)} {depth bound : Nat}

/-- The parser of a block takes statements. -/
def ReadsBlock (block : Parser (List Node)) : Prop :=
  ∀ {gs ss rest}, block gs = .ok (ss, rest) → ∃ bs : List Spelled, bs.map Prod.fst = ss ∧
    (∀ b ∈ bs, SpellsStatement IsIdentifier b.1 b.2) ∧ Reads Anything gs (bs.flatMap Prod.snd) rest

theorem readsAs_case (hblock : ReadsBlock block) :
    ReadsAs (case (expression depth) block) (SpellsCase IsIdentifier) := by
  intro gs c rest h
  simp only [case, bind_eq_ok, here_eq_ok, pure_eq_ok] at h
  obtain ⟨_, _, ⟨rfl, rfl⟩, ⟨⟩, gs₁, hw, e, gs₂, he, ⟨⟩, gs₃, hcolon, ss, _, hss, rfl, rfl⟩ := h
  obtain ⟨ls, hls, hspells⟩ := readsAs_expression depth he
  obtain ⟨bs, rfl, hbs, hreads⟩ := hblock hss
  exact ⟨_, ((reads_word (by decide) hw).append hls).append
      ((reads_mark (by decide) hcolon).append hreads),
    ⟨nextPlace gs, (e, ls), nextPlace gs₂, bs⟩, rfl, hspells, hbs⟩

theorem spells_declaration {gs gs₁ rest : List Glyph} {s : Node}
    (hw : word "LET" gs = .ok ((), gs₁))
    (h : declaration (nextPlace gs) (expression depth) gs₁ = .ok (s, rest)) :
    ∃ ls, Reads Anything gs ls rest ∧ SpellsStatement IsIdentifier s ls := by
  simp only [declaration, bind_eq_ok, pure_eq_ok] at h
  obtain ⟨id, gs₂, hid, t, gs₃, ht, value, gs₄, hvalue, ⟨⟩, _, hend, rfl, rfl⟩ := h
  obtain ⟨hid, hname⟩ := reads_name hid
  obtain ⟨tls, htls, htype⟩ := readsAs_type ht
  obtain ⟨vls, hvls, hspells⟩ := readsAs_value depth hvalue
  exact ⟨_, ((((reads_word (by decide) hw).append hname).append htls).append hvls).append
    (reads_mark (by decide) hend), .declaration hid htype hspells⟩

theorem spells_switch (hblock : ReadsBlock block) {gs gs₁ rest : List Glyph} {s : Node}
    (hw : word "SWITCH" gs = .ok ((), gs₁))
    (h : switch (nextPlace gs) (expression depth) block bound gs₁ = .ok (s, rest)) :
    ∃ ls, Reads Anything gs ls rest ∧ SpellsStatement IsIdentifier s ls := by
  simp only [switch, bind_eq_ok, here_eq_ok, pure_eq_ok] at h
  obtain ⟨c, gs₂, hc, cs, gs₃, hcs, _, _, ⟨rfl, rfl⟩, ⟨⟩, gs₄, hdefault, ss, gs₅, hss, ⟨⟩, _, hend, rfl,
    rfl⟩ := h
  obtain ⟨cls, hcls, hspells⟩ := readsAs_expression depth hc
  obtain ⟨cs', rfl, hcs', hks⟩ := readsAs_many (readsAs_case hblock) hcs
  obtain ⟨ks, rfl, hcases⟩ := exists_eq_map hcs'
  obtain ⟨bs, rfl, hbs, hreads⟩ := hblock hss
  rw [List.map_map]
  rw [List.flatMap_map] at hks
  refine ⟨_, ?_, .switch ks bs hspells (fun k hk => (hcases k hk).1) (fun k hk => (hcases k hk).2) hbs
    (q := nextPlace gs₃) (r := nextPlace gs₅)⟩
  exact ((((reads_word (by decide) hw).append hcls).append hks).append
    ((reads_word (by decide) hdefault).append hreads)).append (reads_word (by decide) hend)

theorem spells_conditional (hblock : ReadsBlock block) {gs gs₁ rest : List Glyph} {s : Node}
    (hw : word "IF" gs = .ok ((), gs₁))
    (h : conditional (nextPlace gs) (expression depth) block gs₁ = .ok (s, rest)) :
    ∃ ls, Reads Anything gs ls rest ∧ SpellsStatement IsIdentifier s ls := by
  simp only [conditional, bind_eq_ok, commit_eq_ok, pure_eq_ok] at h
  obtain ⟨c, gs₂, hc, ⟨⟩, gs₃, hdo, ts, gs₄, hts, es, gs₅, hes, ⟨⟩, _, hend, rfl, rfl⟩ := h
  obtain ⟨cls, hcls, hspells⟩ := readsAs_expression depth hc
  obtain ⟨bs, rfl, hbs, hreads⟩ := hblock hts
  have hthen := ((reads_word (by decide) hw).append hcls).append
    ((reads_word (by decide) hdo).append hreads)
  have hend := reads_word (by decide) hend
  rcases hes with ⟨⟨⟩, gs₆, helse, hes⟩ | ⟨-, rfl, rfl⟩
  · obtain ⟨ds, rfl, hds, hreads'⟩ := hblock hes
    exact ⟨_, (hthen.append ((reads_word (by decide) helse).append hreads')).append hend,
      .conditional bs ds hspells hbs hds (.inr ⟨_, rfl⟩)⟩
  · exact ⟨_, (hthen.append .nil).append hend,
      .conditional bs [] hspells hbs (List.forall_mem_nil _) (.inl ⟨rfl, rfl⟩)⟩

theorem spells_whileLoop (hblock : ReadsBlock block) {gs gs₁ rest : List Glyph} {s : Node}
    (hw : word "WHILE" gs = .ok ((), gs₁))
    (h : whileLoop (nextPlace gs) (expression depth) block gs₁ = .ok (s, rest)) :
    ∃ ls, Reads Anything gs ls rest ∧ SpellsStatement IsIdentifier s ls := by
  simp only [whileLoop, bind_eq_ok, pure_eq_ok] at h
  obtain ⟨c, gs₂, hc, ⟨⟩, gs₃, hdo, ss, gs₄, hss, ⟨⟩, _, hend, rfl, rfl⟩ := h
  obtain ⟨cls, hcls, hspells⟩ := readsAs_expression depth hc
  obtain ⟨bs, rfl, hbs, hreads⟩ := hblock hss
  exact ⟨_, (((reads_word (by decide) hw).append hcls).append
    ((reads_word (by decide) hdo).append hreads)).append (reads_word (by decide) hend),
    .whileLoop bs hspells hbs⟩

theorem spells_returning {gs gs₁ rest : List Glyph} {s : Node}
    (hw : word "RETURN" gs = .ok ((), gs₁))
    (h : returning (nextPlace gs) (expression depth) gs₁ = .ok (s, rest)) :
    ∃ ls, Reads Anything gs ls rest ∧ SpellsStatement IsIdentifier s ls := by
  simp only [returning, bind_eq_ok, pure_eq_ok] at h
  obtain ⟨e, gs₂, he, ⟨⟩, _, hend, rfl, rfl⟩ := h
  obtain ⟨ls, hls, hspells⟩ := readsAs_expression depth he
  exact ⟨_, ((reads_word (by decide) hw).append hls).append (reads_mark (by decide) hend),
    .returning hspells⟩

theorem spells_assignment {gs rest : List Glyph} {s : Node}
    (h : assignment (nextPlace gs) (expression depth) gs = .ok (s, rest)) :
    ∃ ls, Reads Anything gs ls rest ∧ SpellsStatement IsIdentifier s ls := by
  simp only [assignment, bind_eq_ok, commit_eq_ok, pure_eq_ok] at h
  obtain ⟨e, gs₁, he, s, gs₂, hs, ⟨⟩, _, hend, rfl, rfl⟩ := h
  obtain ⟨ls, hls, hspells⟩ := readsAs_expression depth he
  have hend := reads_mark (by decide) hend
  rw [hspells.nextPlace_eq hls] at hs
  rcases hs with ⟨⟨⟩, gs₃, hmark, value, _, hvalue, rfl, rfl⟩ | ⟨-, rfl, rfl⟩
  · obtain ⟨vls, hvls, hvalue⟩ := readsAs_expression depth hvalue
    exact ⟨_, (hls.append ((reads_mark (by decide) hmark).append hvls)).append hend,
      .assignment hspells hvalue⟩
  · exact ⟨_, hls.append hend, .expressionStatement hspells⟩

theorem readsAs_statement (depth : Nat) :
    ReadsAs (statement depth) (SpellsStatement IsIdentifier) := by
  induction depth with
  | zero =>
    intro gs s rest h
    exact absurd h refuse_eq_ok
  | succ depth ih =>
    have hblock : ReadsBlock (many (statement depth) depth) := readsAs_many ih
    intro gs s rest h
    simp only [statement, wordedStatements, byWord, bind_eq_ok, here_eq_ok, commit_eq_ok] at h
    obtain ⟨_, _, ⟨rfl, rfl⟩, h⟩ := h
    rcases h with ⟨⟨⟩, gs₁, hw, h⟩ | ⟨-, h⟩
    · exact spells_declaration hw h
    rcases h with ⟨⟨⟩, gs₁, hw, h⟩ | ⟨-, h⟩
    · exact spells_switch hblock hw h
    rcases h with ⟨⟨⟩, gs₁, hw, h⟩ | ⟨-, h⟩
    · exact spells_conditional hblock hw h
    rcases h with ⟨⟨⟩, gs₁, hw, h⟩ | ⟨-, h⟩
    · exact spells_whileLoop hblock hw h
    rcases h with ⟨⟨⟩, gs₁, hw, h⟩ | ⟨-, h⟩
    · exact spells_returning hw h
    · exact spells_assignment h

end Statements

/-! ## Programs -/

theorem reads_typeName {gs rest : List Glyph} {t : String} (h : typeName gs = .ok (t, rest)) :
    ∃ p q, IsIdentifier t ∧ Reads Anything gs [⟨.mark ":", p⟩, ⟨.name t, q⟩] rest := by
  simp only [typeName, bind_eq_ok] at h
  obtain ⟨⟨⟩, gs₁, hcolon, hname⟩ := h
  obtain ⟨ht, hname⟩ := reads_name hname
  exact ⟨_, _, ht, (reads_mark (by decide) hcolon).append hname⟩

theorem readsAs_global {depth bound : Nat} :
    ReadsAs (global (expression depth) bound) (SpellsGlobal IsIdentifier) := by
  intro gs g rest h
  simp only [global, byWord, wordedGlobals, globalList, globalVariable, globalConstant, bind_eq_ok, here_eq_ok,
    commit_eq_ok, pure_eq_ok] at h
  obtain ⟨_, _, ⟨rfl, rfl⟩, g, gs₁, h, ⟨⟩, _, hend, rfl, rfl⟩ := h
  have hend := reads_mark (by decide) hend
  rcases h with ⟨⟨⟩, _, hw, s, _, hs, t, _, ht, ⟨⟩, _, hmark, ⟨⟩, _, hopen, es, _, hes, ⟨⟩, _, hclose, rfl,
    rfl⟩ | ⟨-, h⟩
  · obtain ⟨hs, hname⟩ := reads_name hs
    obtain ⟨_, _, ht, htype⟩ := reads_typeName ht
    simp only [separated, bind_eq_ok, pure_eq_ok] at hes
    obtain ⟨e, _, he, es, _, hes, rfl, rfl⟩ := hes
    obtain ⟨els, hels, hspells⟩ := readsAs_expression depth he
    obtain ⟨bs, ls, rfl, hbs, hcommas, hls⟩ := readsAs_afterCommas (readsAs_expression depth) hes
    have hhead := (((reads_word (by decide) hw).append hname).append htype).append
      ((reads_mark (by decide) hmark).append (reads_mark (by decide) hopen))
    exact ⟨_, ((hhead.append hels).append hls).append ((reads_mark (by decide) hclose).append hend),
      .list bs hs ht (List.forall_mem_cons.mpr ⟨hspells, hbs⟩) hcommas⟩
  rcases h with ⟨⟨⟩, _, hw, s, _, hs, t, _, ht, value, _, hvalue, rfl, rfl⟩ | ⟨-, h⟩
  · obtain ⟨hs, hname⟩ := reads_name hs
    obtain ⟨_, _, ht, htype⟩ := reads_typeName ht
    obtain ⟨ls, hls, hspells⟩ := readsAs_value depth hvalue
    exact ⟨_, ((((reads_word (by decide) hw).append hname).append htype).append hls).append hend,
      .mutable hs ht hspells⟩
  rcases h with ⟨⟨⟩, _, hw, s, _, hs, t, _, ht, ⟨⟩, _, hmark, value, _, hvalue, rfl, rfl⟩ | ⟨-, h⟩
  · obtain ⟨hs, hname⟩ := reads_name hs
    obtain ⟨_, _, ht, htype⟩ := reads_typeName ht
    obtain ⟨ls, hls, hspells⟩ := readsAs_expression depth hvalue
    have hhead := (((reads_word (by decide) hw).append hname).append htype).append
      (reads_mark (by decide) hmark)
    exact ⟨_, (hhead.append hls).append hend, .immutable hs ht hspells⟩
  · exact absurd h refuse_eq_ok

theorem readsAs_parameter : ReadsAs parameter (SpellsParameter IsIdentifier) := by
  intro gs r rest h
  simp only [parameter, bind_eq_ok, pure_eq_ok] at h
  obtain ⟨s, gs₁, hs, t, _, ht, rfl, rfl⟩ := h
  obtain ⟨hs, hname⟩ := reads_name hs
  obtain ⟨p, q, ht, htype⟩ := reads_typeName ht
  exact ⟨_, hname.append htype, ⟨s, t, _, p, q⟩, rfl, hs, ht⟩

theorem readsAs_function {block : Parser (List Node)} {bound : Nat} (hblock : ReadsBlock block) :
    ReadsAs (function block bound) (SpellsFunction IsIdentifier) := by
  intro gs f rest h
  simp only [function, bind_eq_ok, here_eq_ok, pure_eq_ok] at h
  obtain ⟨_, _, ⟨rfl, rfl⟩, ⟨⟩, _, hw, s, _, hs, ⟨⟩, _, hopen, ps, _, hps, ⟨⟩, _, hclose, t, _, ht, ⟨⟩, _,
    hdo, ss, _, hss, ⟨⟩, _, hend, rfl, rfl⟩ := h
  obtain ⟨hs, hname⟩ := reads_name hs
  obtain ⟨ps', ls, rfl, hps', hseparated, hls⟩ := readsAs_perhapsSeparated readsAs_parameter hps
  obtain ⟨xs, rfl, hxs⟩ := exists_eq_map hps'
  rw [List.map_map] at hseparated
  obtain ⟨rls, hrls, htype⟩ := readsAs_type ht
  obtain ⟨bs, rfl, hbs, hreads⟩ := hblock hss
  have hhead := (((reads_word (by decide) hw).append hname).append
    (reads_mark (by decide) hopen)).append hls
  have htail := (reads_mark (by decide) hclose).append hrls
  simp only [List.map_map]
  exact ⟨_, ((hhead.append htail).append ((reads_word (by decide) hdo).append hreads)).append
    (reads_word (by decide) hend), .function xs bs hs hxs hseparated htype hbs⟩

end PlcLang.Grammar

namespace PlcLang

open Grammar

theorem Node.ofGlyphs_eq_ok_iff {gs : List Glyph} {t : Node} :
    Node.ofGlyphs gs = .ok t ↔ ∃ rest, program (gs.length + 2) gs = .ok (t, rest) := by
  unfold Node.ofGlyphs
  cases program (gs.length + 2) gs with
  | error => exact ⟨nofun, nofun⟩
  | ok r => exact ⟨fun h => ⟨r.2, Except.ok.inj h ▸ rfl⟩, fun ⟨_, h⟩ => by cases h; rfl⟩

/-- **Every tree that is parsed is spelled by the text, up to blanks.** -/
theorem Node.spells_of_ofGlyphs {gs : List Glyph} {t : Node} (h : Node.ofGlyphs gs = .ok t) :
    ∃ ls rest, Reads Anything gs ls rest ∧ skipBlanks rest = [] ∧
      SpellsProgram IsIdentifier t ls := by
  obtain ⟨_, hprogram⟩ := Node.ofGlyphs_eq_ok_iff.mp h
  simp only [program, bind_eq_ok, pure_eq_ok] at hprogram
  obtain ⟨gs', _, hgs, fs', rest, hfs, ⟨⟩, _, hfinish, rfl, rfl⟩ := hprogram
  obtain ⟨bs, rfl, hbs, hreads⟩ := readsAs_many readsAs_global hgs
  obtain ⟨cs, rfl, hcs, hreads'⟩ :=
    readsAs_many (readsAs_function (readsAs_many (readsAs_statement _))) hfs
  exact ⟨_, rest, hreads.append hreads', (finish_eq_ok.mp hfinish).1, .source bs cs hbs hcs⟩

/-- **Every tree that is parsed is a program, with identifiers for names.** -/
theorem Node.isProgram_of_parse? {text : String} {t : Node} (h : Node.parse? text = some t) :
    t.IsProgram IsIdentifier := by
  obtain ⟨_, _, _, _, hspells⟩ := Node.spells_of_ofGlyphs (Node.parse?_eq_some_iff.mp h)
  exact hspells.isProgram

end PlcLang
