import PlcLang.Proofs.Grammar.Follow

/-!
# Expressions that are spelled are parsed

Lexemes that spell an expression are read as this expression, provided that every token ends where
it is meant to end and no name is mistaken for a word. Parentheses are nested less deep than there
are lexemes, so numbers of lexemes bound the depth.

* `Accepts`: which lexemes a parser takes, and what it makes of them.
* `accepts_many`, `accepts_afterCommas`, `accepts_perhapsSeparated`: sequences.
* `accepts_chain`, `accepts_operand`, `accepts_expression`: the levels of expressions.
-/

namespace PlcLang.Grammar

variable {gs rest : List Glyph}

/-! ## Sequences -/

/-- The parser gives `a` for lexemes that are related to `a`, if there are less than `bound` of them
and what follows them is as it should be. -/
def Accepts {α : Type} (bound : Nat) (p : Parser α) (Q : α → List Lexeme → Prop)
    (F : List Glyph → Prop) : Prop :=
  ∀ ⦃a ls gs rest⦄, Q a ls → ls.length < bound → Reads Token.ReadableBefore gs ls rest → F rest →
    p gs = .ok (a, rest)

section Sequences

variable {α : Type} {p : Parser α} {Q : α → List Lexeme → Prop} {F : List Glyph → Prop}
  {bound n : Nat} {bs : List (α × List Lexeme)}

theorem holds_before_many
    (hnext : ∀ ⦃a ls gs gs'⦄, Q a ls → Reads Token.ReadableBefore gs ls gs' → F gs)
    (hbs : ∀ b ∈ bs, Q b.1 b.2) (h : Reads Token.ReadableBefore gs (bs.flatMap Prod.snd) rest)
    (hF : F rest) : F gs := by
  cases bs with
  | nil =>
    cases h
    exact hF
  | cons b bs =>
    rw [List.flatMap_cons] at h
    obtain ⟨_, hfirst, -⟩ := h.exists_of_append
    exact hnext (hbs b List.mem_cons_self) hfirst

theorem many_of_mismatch (h : p gs = .error .mismatch) (n : Nat) : many p n gs = .ok ([], gs) := by
  cases n with
  | zero => rfl
  | succ n => exact commit_of_mismatch h

theorem accepts_many (hp : Accepts bound p Q F) (hne : ∀ a, ¬ Q a [])
    (hnext : ∀ ⦃a ls gs gs'⦄, Q a ls → Reads Token.ReadableBefore gs ls gs' → F gs)
    (hbs : ∀ b ∈ bs, Q b.1 b.2) (hbound : (bs.flatMap Prod.snd).length < bound)
    (hn : (bs.flatMap Prod.snd).length ≤ n)
    (h : Reads Token.ReadableBefore gs (bs.flatMap Prod.snd) rest) (hF : F rest)
    (hstop : p rest = .error .mismatch) : many p n gs = .ok (bs.map Prod.fst, rest) := by
  induction bs generalizing n gs with
  | nil =>
    cases h
    exact many_of_mismatch hstop n
  | cons b bs ih =>
    obtain ⟨hb, hbs⟩ := List.forall_mem_cons.mp hbs
    rw [List.flatMap_cons, List.length_append] at hbound hn
    rw [List.flatMap_cons] at h
    obtain ⟨gs₁, hfirst, hrest⟩ := h.exists_of_append
    have hlength : b.2.length ≠ 0 := fun h => hne b.1 (List.length_eq_zero_iff.mp h ▸ hb)
    have hF₁ := holds_before_many hnext hbs hrest hF
    cases n with
    | zero => omega
    | succ n =>
      have hrec := ih hbs (by omega) (n := n) (by omega) hrest
      unfold many
      rw [commit_of_ok (hp hb (by omega) hfirst hF₁)]
      simp only [bind_eq_ok, pure_eq_ok]
      exact ⟨_, _, hrec, rfl, rfl⟩

theorem holds_before_commas (hcomma : ∀ {gs gs'}, Offers gs (.mark ",") gs' → F gs)
    {items : List (List Lexeme)} {ls : List Lexeme} (hls : AfterCommas items ls)
    (h : Reads Token.ReadableBefore gs ls rest) (hF : F rest) : F gs := by
  cases hls with
  | nil =>
    cases h
    exact hF
  | cons =>
    obtain ⟨_, hmark, -⟩ := h.exists_of_cons
    exact hcomma hmark

theorem afterCommas_of_mismatch (h : mark "," gs = .error .mismatch) (n : Nat) :
    afterCommas p n gs = .ok ([], gs) := by
  cases n with
  | zero => rfl
  | succ n => exact commit_of_mismatch h

theorem accepts_afterCommas (hp : Accepts bound p Q F)
    (hcomma : ∀ {gs gs'}, Offers gs (.mark ",") gs' → F gs) (hbs : ∀ b ∈ bs, Q b.1 b.2)
    {ls : List Lexeme} (hls : AfterCommas (bs.map Prod.snd) ls) (hbound : ls.length < bound)
    (hn : ls.length ≤ n) (h : Reads Token.ReadableBefore gs ls rest) (hF : F rest)
    (hstop : mark "," rest = .error .mismatch) : afterCommas p n gs = .ok (bs.map Prod.fst, rest) := by
  induction bs generalizing n gs ls with
  | nil =>
    cases hls
    cases h
    exact afterCommas_of_mismatch hstop n
  | cons b bs ih =>
    obtain ⟨hb, hbs⟩ := List.forall_mem_cons.mp hbs
    cases hls with
    | @cons _ _ rest' _ hls =>
      rw [List.length_append, List.length_cons] at hbound hn
      obtain ⟨gs₂, hfirst, hrest⟩ := h.exists_of_append
      obtain ⟨gs₁, hmark, hfirst⟩ := hfirst.exists_of_cons
      have hF₂ := holds_before_commas hcomma hls hrest hF
      cases n with
      | zero => omega
      | succ n =>
        have hrec := ih hbs hls (by omega) (n := n) (by omega) hrest
        unfold afterCommas
        rw [commit_of_ok hmark.mark_eq]
        simp only [bind_eq_ok, pure_eq_ok]
        exact ⟨_, _, hp hb (by omega) hfirst hF₂, _, _, hrec, rfl, rfl⟩

theorem accepts_perhapsSeparated (hp : Accepts bound p Q F)
    (hcomma : ∀ {gs gs'}, Offers gs (.mark ",") gs' → F gs ∧ p gs = .error .mismatch)
    (hbs : ∀ b ∈ bs, Q b.1 b.2) {ls : List Lexeme} (hls : PerhapsSeparated (bs.map Prod.snd) ls)
    (hbound : ls.length < bound) (hn : ls.length ≤ n) (h : Reads Token.ReadableBefore gs ls rest)
    (hF : F rest) (hstop : mark "," rest = .error .mismatch) (hnone : p rest = .error .mismatch) :
    perhapsSeparated p n gs = .ok (bs.map Prod.fst, rest) := by
  have hcomma' {gs gs'} (h : Offers gs (.mark ",") gs') : F gs := (hcomma h).1
  generalize hitems : bs.map Prod.snd = items at hls
  cases hls with
  | leading hls =>
    have hrefused : p gs = .error .mismatch := by
      cases hls with
      | nil =>
        cases h
        exact hnone
      | cons =>
        obtain ⟨_, hmark, -⟩ := h.exists_of_cons
        exact (hcomma hmark).2
    unfold perhapsSeparated
    rw [commit_of_mismatch hrefused]
    exact accepts_afterCommas hp hcomma' hbs (hitems ▸ hls) hbound hn h hF hstop
  | @plain _ _ rest' hls =>
    obtain ⟨b, bs, rfl, rfl, rfl⟩ := List.map_eq_cons_iff.mp hitems
    obtain ⟨hb, hbs⟩ := List.forall_mem_cons.mp hbs
    rw [List.length_append] at hbound hn
    obtain ⟨gs₁, hfirst, hrest⟩ := h.exists_of_append
    have hF₁ := holds_before_commas hcomma' hls hrest hF
    unfold perhapsSeparated
    rw [commit_of_ok (hp hb (by omega) hfirst hF₁)]
    simp only [bind_eq_ok, pure_eq_ok]
    exact ⟨_, _, accepts_afterCommas hp hcomma' hbs hls (by omega) (by omega) hrest hF hstop, rfl, rfl⟩

end Sequences

/-! ## Expressions -/

/-- The parser takes the expressions of a level, where what follows does not extend them. -/
abbrev AcceptsLevel (bound : Nat) (p : Parser Node) (l : Option Level) : Prop :=
  Accepts bound p (Spells PlainName l) (Clear l)

theorem operator_eq_of_mem {ops : List Operator} {op : Operator} (hmem : op ∈ ops)
    (hall : ∀ o ∈ ops, o ∈ Operator.all ∧ o.symbol ∈ marks)
    (h : Offers gs (.mark op.symbol) rest) : operator ops gs = .ok (op, rest) := by
  induction ops with
  | nil => cases hmem
  | cons o ops ih =>
    obtain ⟨⟨ho, hmark⟩, hops⟩ := List.forall_mem_cons.mp hall
    unfold operator
    by_cases heq : o = op
    · subst heq
      exact commit_of_ok h.mark_eq
    · have hmem := (List.mem_cons.mp hmem).resolve_left (Ne.symm heq)
      rw [commit_of_mismatch (h.mark_eq_mismatch hmark
        ((head?_symbol_ne (hops op hmem).1).2 o ho heq))]
      exact ih hmem hops

theorem operator_eq_mismatch {ops : List Operator} (h : ∀ o ∈ ops, mark o.symbol gs = .error .mismatch) :
    operator ops gs = .error .mismatch := by
  induction ops with
  | nil => rfl
  | cons o ops ih =>
    obtain ⟨ho, hops⟩ := List.forall_mem_cons.mp h
    unfold operator
    rw [commit_of_mismatch ho]
    exact ih hops

theorem operation_eq_mismatch {ops : List Operator} {operand : Parser Node}
    (h : operator ops gs = .error .mismatch) : operation ops operand gs = .error .mismatch :=
  bind_of_error h

theorem operator_eq {op : Operator} {l : Level} (hop : op.level? = some l)
    (h : Offers gs (.mark op.symbol) rest) : operator l.operators gs = .ok (op, rest) :=
  operator_eq_of_mem (Level.mem_operators.mpr hop) (fun _ ho =>
    have ho := Level.mem_operators.mp ho
    ⟨mem_all_of_level? ho, symbol_mem_marks ho⟩) h

theorem accepts_operation {bound : Nat} {l : Level} {operand : Parser Node}
    (ho : AcceptsLevel bound operand l.tighter?) :
    Accepts bound (operation l.operators operand) (SpellsOperation PlainName l)
      (Clear l.tighter?) := by
  rintro _ _ gs rest ⟨o, ⟨⟩, hlevel, he⟩ hbound h hclear
  obtain ⟨gs₁, hop, hrest⟩ := h.exists_of_cons
  simp only [operation, bind_eq_ok, pure_eq_ok]
  exact ⟨_, _, operator_eq hlevel hop, _, _, ho he (Nat.lt_of_succ_lt hbound) hrest hclear, rfl, rfl⟩

theorem SpellsOperation.clear {l : Level} {r : Operator × Node} {ls : List Lexeme}
    (hr : SpellsOperation PlainName l r ls) (h : Reads Token.ReadableBefore gs ls rest) :
    Clear l.tighter? gs := by
  obtain ⟨o, ⟨⟩, hop, -⟩ := hr
  obtain ⟨_, hmark, -⟩ := h.exists_of_cons
  exact .of_operator hmark hop

theorem accepts_chain {n : Nat} {l : Level} {operand : Parser Node}
    (ho : AcceptsLevel (n + 1) operand l.tighter?) :
    AcceptsLevel (n + 1) (chain n l.operators operand) (some l) := by
  intro e ls gs rest hspells hbound h hclear
  cases hspells with
  | @chain _ first ls os hfirst hlevel hoperands =>
    have hlexemes : (os.map Operation.spelled).flatMap Prod.snd = os.flatMap Operation.lexemes :=
      List.flatMap_map ..
    have hos : ∀ b ∈ os.map Operation.spelled, SpellsOperation PlainName l b.1 b.2 := by
      intro b hb
      obtain ⟨o, ho, rfl⟩ := List.mem_map.mp hb
      exact ⟨o, rfl, hlevel o ho, hoperands o ho⟩
    have hnext ⦃r ls gs gs'⦄ (hr : SpellsOperation PlainName l r ls)
        (h : Reads Token.ReadableBefore gs ls gs') : Clear l.tighter? gs := hr.clear h
    rw [← hlexemes, List.length_append] at hbound
    rw [← hlexemes] at h
    obtain ⟨gs₁, hread, hreads⟩ := h.exists_of_append
    have hstop : operation l.operators operand rest = .error .mismatch :=
      operation_eq_mismatch (operator_eq_mismatch fun o ho =>
        hclear.operator (Level.mem_operators.mp ho) (Nat.le_refl _))
    have hempty (r) : ¬ SpellsOperation PlainName l r [] := by
      rintro ⟨_, h, -⟩
      cases h
    have hrest := accepts_many (accepts_operation ho) hempty hnext hos (by omega) (n := n) (by omega)
      hreads hclear.tighten hstop
    have hfirst' := ho hfirst (by omega) hread (holds_before_many hnext hos hreads hclear.tighten)
    simp only [chain, bind_eq_ok, here_eq_ok, pure_eq_ok]
    refine ⟨_, _, ⟨rfl, rfl⟩, first, gs₁, hfirst', _, _, hrest, ?_, rfl⟩
    rw [hfirst.nextPlace_eq hread, List.map_map]
    rfl

theorem accepts_operand {n : Nat} (hi : AcceptsLevel n (expression n) (some .logical)) :
    AcceptsLevel (n + 1) (operand n (expression n)) none := by
  intro e ls gs rest hspells hbound h hclear
  simp only [operand, bind_eq_ok, here_eq_ok]
  refine ⟨_, _, ⟨rfl, rfl⟩, ?_⟩
  cases hspells with
  | literal hv _ =>
    obtain ⟨gs₁, hx, hnil⟩ := h.exists_of_cons
    cases hnil
    rw [commit_of_ok (hx.literal_eq h.fits hv), h.place_eq]
    rfl
  | @group e ls p q he =>
    obtain ⟨gs₂, h', hclose⟩ := h.exists_of_append
    obtain ⟨gs₁, hopen, hread⟩ := h'.exists_of_cons
    obtain ⟨gs₃, hclose, hnil⟩ := hclose.exists_of_cons
    cases hnil
    rw [commit_of_mismatch (hopen.literal_eq_mismatch trivial rfl (by decide)), commit_of_ok hopen.mark_eq]
    simp only [List.length_append, List.length_cons] at hbound
    have he := hi he (by omega) hread (.of_closer hclose (by decide))
    simp only [bind_eq_ok, pure_eq_ok]
    exact ⟨_, _, he, _, _, hclose.mark_eq, by rw [h'.place_eq], rfl⟩
  | @reference s p hs =>
    obtain ⟨gs₁, hname, hnil⟩ := h.exists_of_cons
    cases hnil
    rw [commit_of_mismatch (hname.literal_eq_mismatch hs rfl Token.noConfusion),
      commit_of_mismatch (hname.mark_eq_mismatch_of_letter rfl (by decide))]
    simp only [bind_eq_ok]
    refine ⟨s, rest, hname.name_eq, ?_⟩
    rw [commit_of_mismatch hclear.parenthesis, commit_of_mismatch hclear.bracket, h.place_eq]
    rfl
  | @item s e ls p q r hs he =>
    obtain ⟨gs₃, h', hclose⟩ := h.exists_of_append
    obtain ⟨gs₁, hname, hopen⟩ := h'.exists_of_cons
    obtain ⟨gs₂, hopen, hread⟩ := hopen.exists_of_cons
    obtain ⟨gs₄, hclose, hnil⟩ := hclose.exists_of_cons
    cases hnil
    simp only [List.length_append, List.length_cons] at hbound
    have he := hi he (by omega) hread (.of_closer hclose (by decide))
    rw [commit_of_mismatch (hname.literal_eq_mismatch hs rfl Token.noConfusion),
      commit_of_mismatch (hname.mark_eq_mismatch_of_letter rfl (by decide))]
    simp only [bind_eq_ok]
    refine ⟨s, gs₁, hname.name_eq, ?_⟩
    rw [commit_of_mismatch (hopen.mark_eq_mismatch (by decide) (by decide)), commit_of_ok hopen.mark_eq]
    simp only [bind_eq_ok, pure_eq_ok]
    exact ⟨_, _, he, _, _, hclose.mark_eq, by rw [h'.place_eq], rfl⟩
  | @call s ls p q r as hs has hseparated =>
    obtain ⟨gs₃, h', hclose⟩ := h.exists_of_append
    obtain ⟨gs₁, hname, hopen⟩ := h'.exists_of_cons
    obtain ⟨gs₂, hopen, hread⟩ := hopen.exists_of_cons
    obtain ⟨gs₄, hclose, hnil⟩ := hclose.exists_of_cons
    cases hnil
    simp only [List.length_append, List.length_cons] at hbound
    have harguments := accepts_perhapsSeparated hi
      (fun hcomma => ⟨.of_closer hcomma (by decide), expression_eq_mismatch hcomma (by decide)⟩)
      has hseparated (by omega) (n := n) (by omega) hread (.of_closer hclose (by decide))
      (hclose.mark_eq_mismatch (by decide) (by decide)) (expression_eq_mismatch hclose (by decide))
    rw [commit_of_mismatch (hname.literal_eq_mismatch hs rfl Token.noConfusion),
      commit_of_mismatch (hname.mark_eq_mismatch_of_letter rfl (by decide))]
    simp only [bind_eq_ok]
    refine ⟨s, gs₁, hname.name_eq, ?_⟩
    rw [commit_of_ok hopen.mark_eq]
    simp only [bind_eq_ok, pure_eq_ok]
    exact ⟨_, _, harguments, _, _, hclose.mark_eq, by rw [h'.place_eq], rfl⟩

theorem accepts_expression (depth : Nat) :
    AcceptsLevel depth (expression depth) (some .logical) := by
  induction depth with
  | zero =>
    intro e ls gs rest _ hbound
    exact absurd hbound (Nat.not_lt_zero _)
  | succ depth ih =>
    exact accepts_chain (l := .logical) <| accepts_chain (l := .comparison) <|
      accepts_chain (l := .additive) <| accepts_chain (l := .multiplicative) <| accepts_operand ih

end PlcLang.Grammar
