import PlcLang.Proofs.Grammar.Complete.Expression

/-!
# Statements that are spelled are parsed

The first word decides which statement is read, and no expression begins with such a word.

* `AcceptsBlock`: which lexemes the parser of a block takes.
* `accepts_declaration`, `accepts_switch`, …: the statements, one by one.
* `accepts_statement`: all statements.
-/

namespace PlcLang.Grammar

variable {gs rest : List Glyph}

/-! ## Parts of statements -/

/-- An expression begins with a plain token, and with a word only if it is a literal. -/
theorem Spells.begins {l : Option Level} {e : Node} {ls : List Lexeme} (h : Spells PlainName l e ls) :
    ∃ x ls', ls = x :: ls' ∧ x.token.IsPlain ∧
      ∀ w, x.token = .word w → (Token.word w).value?.isSome = true := by
  induction h with
  | @literal x v hv _ =>
    refine ⟨x, [], rfl, ?_, fun w hw => ?_⟩
    · cases hx : x.token with
      | name =>
        rw [hx] at hv
        cases hv
      | _ => trivial
    · rw [← hw, hv]
      rfl
  | group => exact ⟨_, _, rfl, trivial, nofun⟩
  | reference hs | item hs | call _ hs => exact ⟨_, _, rfl, hs, nofun⟩
  | chain os _ _ _ ih _ =>
    obtain ⟨x, ls', rfl, hplain, hword⟩ := ih
    exact ⟨x, _, rfl, hplain, hword⟩

theorem Spells.word_eq_mismatch {l : Option Level} {e : Node} {ls : List Lexeme}
    (h : Spells PlainName l e ls) (hr : Reads Token.ReadableBefore gs ls rest) {w : String}
    (hw : w ∈ keywords) (hv : (Token.word w).value? = none) : word w gs = .error .mismatch := by
  obtain ⟨⟨t, p⟩, ls', rfl, hplain, hword⟩ := h.begins
  obtain ⟨gs₁, hoffers, -⟩ := hr.exists_of_cons
  refine hoffers.word_eq_mismatch hplain hw ?_
  rintro rfl
  have hsome := hword w rfl
  rw [hv] at hsome
  cases hsome

/-- No statement of another kind is tried before an expression. -/
theorem Spells.statementWord_eq_mismatch {l : Option Level} {e : Node} {ls : List Lexeme}
    (h : Spells PlainName l e ls) (hr : Reads Token.ReadableBefore gs ls rest) {w : String}
    (hw : w ∈ statementWords) : word w gs = .error .mismatch := by
  have hvalue : ∀ w ∈ statementWords, (Token.word w).value? = none := by decide
  exact h.word_eq_mismatch hr (statementWords_subset hw) (hvalue w hw)

section Parts

variable {depth : Nat} {ls : List Lexeme}

theorem type_eq {typeName : Name} (ht : SpellsType PlainName typeName ls)
    (h : Reads Token.ReadableBefore gs ls rest) (hstop : mark ":" rest = .error .mismatch) :
    after ":" (some <$> name) none gs = .ok (typeName, rest) := by
  cases ht with
  | absent =>
    cases h
    exact commit_of_mismatch hstop
  | present ht =>
    obtain ⟨gs₁, hcolon, hname⟩ := h.exists_of_cons
    obtain ⟨gs₂, hname, hnil⟩ := hname.exists_of_cons
    cases hnil
    unfold after
    rw [commit_of_ok hcolon.mark_eq, map_eq_ok]
    exact ⟨_, hname.name_eq, rfl⟩

theorem value_eq {value : Node} (hv : SpellsValue PlainName value ls) (hbound : ls.length ≤ depth)
    (h : Reads Token.ReadableBefore gs ls rest) {rest' : List Glyph} (hend : Offers rest (.mark ";") rest') :
    after "=" (expression depth) .missing gs = .ok (value, rest) := by
  cases hv with
  | absent =>
    cases h
    exact commit_of_mismatch (hend.mark_eq_mismatch (by decide) (by decide))
  | present he =>
    obtain ⟨gs₁, hmark, hread⟩ := h.exists_of_cons
    unfold after
    rw [commit_of_ok hmark.mark_eq]
    exact accepts_expression depth he hbound hread (.of_closer hend (by decide))

theorem colon_eq_mismatch {value : Node} (hv : SpellsValue PlainName value ls)
    (h : Reads Token.ReadableBefore gs ls rest) {rest' : List Glyph} (hend : Offers rest (.mark ";") rest') :
    mark ":" gs = .error .mismatch := by
  cases hv with
  | absent =>
    cases h
    exact hend.mark_eq_mismatch (by decide) (by decide)
  | present =>
    obtain ⟨gs₁, hmark, -⟩ := h.exists_of_cons
    exact hmark.mark_eq_mismatch (by decide) (by decide)

end Parts

/-! ## Statements without blocks -/

section Statements

variable {all : List Lexeme}

section Simple

variable {depth : Nat} {ls : List Lexeme}

theorem accepts_declaration {s : String} {typeName : Name} {value : Node} {tls vls : List Lexeme}
    {p q r : Place} (ht : SpellsType PlainName typeName tls) (hv : SpellsValue PlainName value vls)
    (hls : all = ⟨.word "LET", p⟩ :: ⟨.name s, q⟩ :: tls ++ vls ++ [⟨.mark ";", r⟩])
    (hbound : all.length < depth + 1) (h : Reads Token.ReadableBefore gs all rest) :
    statement (depth + 1) gs = .ok (.declaration (some s) typeName value none p, rest) := by
  subst hls
  simp only [List.length_append, List.length_cons] at hbound
  have hplace := h.place_eq
  obtain ⟨gs₄, h, hend⟩ := h.exists_of_append
  obtain ⟨gs₃, h, hvalue⟩ := h.exists_of_append
  obtain ⟨gs₁, hword, h⟩ := h.exists_of_cons
  obtain ⟨gs₂, hname, htype⟩ := h.exists_of_cons
  obtain ⟨_, hend, hnil⟩ := hend.exists_of_cons
  cases hnil
  have htype := type_eq ht htype (colon_eq_mismatch hv hvalue hend)
  have hlength : vls.length ≤ depth := by omega
  have hvalue := value_eq hv hlength hvalue hend
  rw [hword.statement_eq rfl, hplace]
  simp only [declaration, bind_eq_ok, pure_eq_ok]
  exact ⟨_, _, hname.name_eq, _, _, htype, _, _, hvalue, _, _, hend.mark_eq, rfl, rfl⟩

theorem accepts_returning {e : Node} {p q : Place} (he : Spells PlainName (some .logical) e ls)
    (hls : all = ⟨.word "RETURN", p⟩ :: ls ++ [⟨.mark ";", q⟩])
    (hbound : all.length < depth + 1) (h : Reads Token.ReadableBefore gs all rest) :
    statement (depth + 1) gs = .ok (.returning e p, rest) := by
  subst hls
  simp only [List.length_append, List.length_cons] at hbound
  have hplace := h.place_eq
  obtain ⟨gs₂, h, hend⟩ := h.exists_of_append
  obtain ⟨gs₁, hword, hread⟩ := h.exists_of_cons
  obtain ⟨_, hend, hnil⟩ := hend.exists_of_cons
  cases hnil
  have he := accepts_expression depth he (by omega) hread (.of_closer hend (by decide))
  rw [hword.statement_eq rfl, hplace]
  simp only [returning, bind_eq_ok, pure_eq_ok]
  exact ⟨_, _, he, _, _, hend.mark_eq, rfl, rfl⟩

theorem accepts_assignment {e value : Node} {vls : List Lexeme} {p q : Place}
    (he : Spells PlainName (some .logical) e ls) (hv : Spells PlainName (some .logical) value vls)
    (hls : all = ls ++ ⟨.mark "=", p⟩ :: vls ++ [⟨.mark ";", q⟩])
    (hbound : all.length < depth + 1) (h : Reads Token.ReadableBefore gs all rest) :
    statement (depth + 1) gs = .ok (.assignment e value e.place, rest) := by
  subst hls
  simp only [List.length_append, List.length_cons] at hbound
  obtain ⟨gs₃, h, hend⟩ := h.exists_of_append
  obtain ⟨gs₁, hread, h⟩ := h.exists_of_append
  obtain ⟨gs₂, hmark, hvalue⟩ := h.exists_of_cons
  obtain ⟨_, hend, hnil⟩ := hend.exists_of_cons
  cases hnil
  rw [statement_eq_assignment fun w hw => he.statementWord_eq_mismatch hread hw, he.nextPlace_eq hread]
  have he := accepts_expression depth he (by omega) hread (.of_closer hmark (by decide))
  have hv := accepts_expression depth hv (by omega) hvalue (.of_closer hend (by decide))
  simp only [assignment, bind_eq_ok, pure_eq_ok]
  refine ⟨_, _, he, .assignment e value e.place, _, ?_, _, _, hend.mark_eq, rfl, rfl⟩
  rw [commit_of_ok hmark.mark_eq]
  simp only [bind_eq_ok, pure_eq_ok]
  exact ⟨_, _, hv, rfl, rfl⟩

theorem accepts_expressionStatement {e : Node} {q : Place}
    (he : Spells PlainName (some .logical) e ls)
    (hls : all = ls ++ [⟨.mark ";", q⟩]) (hbound : all.length < depth + 1)
    (h : Reads Token.ReadableBefore gs all rest) :
    statement (depth + 1) gs = .ok (.expressionStatement e e.place, rest) := by
  subst hls
  simp only [List.length_append, List.length_cons] at hbound
  obtain ⟨gs₁, hread, hend⟩ := h.exists_of_append
  obtain ⟨_, hend, hnil⟩ := hend.exists_of_cons
  cases hnil
  rw [statement_eq_assignment fun w hw => he.statementWord_eq_mismatch hread hw, he.nextPlace_eq hread]
  have he := accepts_expression depth he (by omega) hread (.of_closer hend (by decide))
  simp only [assignment, bind_eq_ok, pure_eq_ok]
  refine ⟨_, _, he, .expressionStatement e e.place, _, ?_, _, _, hend.mark_eq, rfl, rfl⟩
  exact commit_of_mismatch (hend.mark_eq_mismatch (by decide) (by decide))

end Simple

/-! ## Blocks and cases -/

/-- A token that ends a block follows. -/
def EndsBlock (gs : List Glyph) : Prop := ∃ t ∈ enders, ∃ rest, Offers gs t rest

/-- The parser takes the statements of a block, where a token follows that ends the block. -/
def AcceptsBlock (bound : Nat) (block : Parser (List Node)) : Prop :=
  ∀ ⦃bs : List Spelled⦄ ⦃gs rest⦄, (∀ b ∈ bs, SpellsStatement PlainName b.1 b.2) →
    (bs.flatMap Prod.snd).length < bound →
    Reads Token.ReadableBefore gs (bs.flatMap Prod.snd) rest → EndsBlock rest →
    block gs = .ok (bs.map Prod.fst, rest)

section Cases

variable {depth : Nat} {block : Parser (List Node)}

theorem SpellsCase.exists_offers {c : Node} {ls : List Lexeme} (hc : SpellsCase PlainName c ls)
    (h : Reads Token.ReadableBefore gs ls rest) : ∃ gs', Offers gs (.word "CASE") gs' := by
  obtain ⟨k, ⟨⟩, -⟩ := hc
  obtain ⟨_, h, -⟩ := h.exists_of_append
  obtain ⟨gs₁, hword, -⟩ := h.exists_of_cons
  exact ⟨gs₁, hword⟩

theorem case_eq_mismatch {expression : Parser Node} (h : word "CASE" gs = .error .mismatch) :
    case expression block gs = .error .mismatch := by
  unfold case
  rw [bind_of_ok (here_eq gs), bind_of_error h]

theorem accepts_case (hblock : AcceptsBlock depth block) :
    Accepts depth (case (expression depth) block) (SpellsCase PlainName) EndsBlock := by
  rintro _ _ gs rest ⟨k, ⟨⟩, hvalue, hss⟩ hbound h hend
  obtain ⟨gs₂, h', hrest⟩ := h.exists_of_append
  obtain ⟨gs₁, hword, hread⟩ := h'.exists_of_cons
  obtain ⟨gs₃, hcolon, hreads⟩ := hrest.exists_of_cons
  simp only [SpelledCase.lexemes, List.length_append, List.length_cons] at hbound
  have hvalue := accepts_expression depth hvalue (by omega) hread (.of_closer hcolon (by decide))
  simp only [case, bind_eq_ok, here_eq_ok, pure_eq_ok]
  exact ⟨_, _, ⟨rfl, rfl⟩, (), gs₁, hword.word_eq, _, gs₂, hvalue, (), gs₃, hcolon.mark_eq, _, rest,
    hblock hss (by omega) hreads hend, by rw [h'.place_eq]; rfl, rfl⟩

end Cases

/-! ## Statements with blocks -/

variable {depth : Nat} (hblock : AcceptsBlock depth (many (statement depth) depth))
include hblock

theorem accepts_switch {c : Node} {cls : List Lexeme} {p q r : Place} (ks : List SpelledCase)
    (default : List Spelled) (hc : Spells PlainName (some .logical) c cls)
    (hvalues : ∀ k ∈ ks, Spells PlainName (some .logical) k.value.1 k.value.2)
    (hblocks : ∀ k ∈ ks, ∀ s ∈ k.block, SpellsStatement PlainName s.1 s.2)
    (hdefault : ∀ s ∈ default, SpellsStatement PlainName s.1 s.2)
    (hls : all = ⟨.word "SWITCH", p⟩ :: cls ++ ks.flatMap SpelledCase.lexemes ++
      ⟨.word "DEFAULT", q⟩ :: default.flatMap Prod.snd ++ [⟨.word "END", r⟩])
    (hbound : all.length < depth + 1) (h : Reads Token.ReadableBefore gs all rest) :
    statement (depth + 1) gs =
      .ok (.switch c (ks.map SpelledCase.node ++ [.case .missing (default.map Prod.fst) q]) p, rest) := by
  subst hls
  simp only [List.length_append, List.length_cons] at hbound
  have hplace := h.place_eq
  obtain ⟨gs₅, h, hend⟩ := h.exists_of_append
  obtain ⟨gs₃, h, hrest⟩ := h.exists_of_append
  obtain ⟨gs₂, h, hcases⟩ := h.exists_of_append
  obtain ⟨gs₁, hword, hcondition⟩ := h.exists_of_cons
  have hdefaultPlace := hrest.place_eq
  obtain ⟨gs₄, hword', hreads⟩ := hrest.exists_of_cons
  obtain ⟨_, hend, hnil⟩ := hend.exists_of_cons
  cases hnil
  have hlexemes : (ks.map SpelledCase.spelled).flatMap Prod.snd = ks.flatMap SpelledCase.lexemes :=
    List.flatMap_map ..
  have hks : ∀ b ∈ ks.map SpelledCase.spelled, SpellsCase PlainName b.1 b.2 := by
    intro b hb
    obtain ⟨k, hk, rfl⟩ := List.mem_map.mp hb
    exact ⟨k, rfl, hvalues k hk, hblocks k hk⟩
  rw [← hlexemes] at hcases hbound
  have hcondition := accepts_expression depth hc (by omega) hcondition
    (holds_before_many (F := Clear (some .logical))
      (fun _ _ _ _ hk hread => (hk.exists_offers hread).elim fun _ hcase =>
        .of_closer hcase (by decide)) hks hcases (.of_closer hword' (by decide)))
  have hcases := accepts_many (accepts_case hblock) (fun _ ⟨_, h, _⟩ => by cases h)
    (fun _ _ _ _ hk hread => (hk.exists_offers hread).elim fun _ hcase =>
      ⟨_, by decide, _, hcase⟩) hks (by omega) (n := depth) (by omega) hcases ⟨_, by decide, _, hword'⟩
    (case_eq_mismatch (hword'.word_eq_mismatch trivial (by decide) (by decide)))
  have hdefault := hblock hdefault (by omega) hreads ⟨_, by decide, _, hend⟩
  rw [hword.statement_eq rfl, hplace]
  simp only [switch, bind_eq_ok, here_eq_ok, pure_eq_ok]
  refine ⟨_, _, hcondition, _, _, hcases, _, _, ⟨rfl, rfl⟩, _, _, hword'.word_eq, _, _, hdefault, _, _,
    hend.word_eq, ?_, rfl⟩
  rw [hdefaultPlace, List.map_map]
  rfl

theorem accepts_conditional {c : Node} {cls els : List Lexeme} {p q r : Place} (ts es : List Spelled)
    (hc : Spells PlainName (some .logical) c cls)
    (hts : ∀ s ∈ ts, SpellsStatement PlainName s.1 s.2)
    (hes : ∀ s ∈ es, SpellsStatement PlainName s.1 s.2)
    (hels : els = [] ∧ es = [] ∨ ∃ p', els = ⟨.word "ELSE", p'⟩ :: es.flatMap Prod.snd)
    (hls : all = ⟨.word "IF", p⟩ :: cls ++ ⟨.word "DO", q⟩ :: ts.flatMap Prod.snd ++ els ++
      [⟨.word "END", r⟩])
    (hbound : all.length < depth + 1) (h : Reads Token.ReadableBefore gs all rest) :
    statement (depth + 1) gs = .ok (.conditional c (ts.map Prod.fst) (es.map Prod.fst) p, rest) := by
  subst hls
  simp only [List.length_append, List.length_cons] at hbound
  have hplace := h.place_eq
  obtain ⟨gs₅, h, hend⟩ := h.exists_of_append
  obtain ⟨gs₄, h, helse⟩ := h.exists_of_append
  obtain ⟨gs₂, h, hthen⟩ := h.exists_of_append
  obtain ⟨gs₁, hword, hcondition⟩ := h.exists_of_cons
  obtain ⟨gs₃, hdo, hthen⟩ := hthen.exists_of_cons
  obtain ⟨_, hend, hnil⟩ := hend.exists_of_cons
  cases hnil
  have hcondition := accepts_expression depth hc (by omega) hcondition (.of_closer hdo (by decide))
  rw [hword.statement_eq rfl, hplace]
  simp only [conditional, bind_eq_ok, pure_eq_ok]
  refine ⟨_, _, hcondition, _, _, hdo.word_eq, ts.map Prod.fst, gs₄, ?_, es.map Prod.fst, gs₅, ?_, _, _,
    hend.word_eq, rfl, rfl⟩
  · refine hblock hts (by omega) hthen ?_
    rcases hels with ⟨rfl, rfl⟩ | ⟨p', rfl⟩
    · cases helse
      exact ⟨_, by decide, _, hend⟩
    · obtain ⟨_, hword, -⟩ := helse.exists_of_cons
      exact ⟨_, by decide, _, hword⟩
  · rcases hels with ⟨rfl, rfl⟩ | ⟨p', rfl⟩
    · cases helse
      exact commit_of_mismatch (hend.word_eq_mismatch trivial (by decide) (by decide))
    · obtain ⟨_, hword, helse⟩ := helse.exists_of_cons
      rw [List.length_cons] at hbound
      rw [commit_of_ok hword.word_eq]
      exact hblock hes (by omega) helse ⟨_, by decide, _, hend⟩

theorem accepts_whileLoop {c : Node} {cls : List Lexeme} {p q r : Place} (ss : List Spelled)
    (hc : Spells PlainName (some .logical) c cls)
    (hss : ∀ s ∈ ss, SpellsStatement PlainName s.1 s.2)
    (hls : all = ⟨.word "WHILE", p⟩ :: cls ++ ⟨.word "DO", q⟩ :: ss.flatMap Prod.snd ++
      [⟨.word "END", r⟩])
    (hbound : all.length < depth + 1) (h : Reads Token.ReadableBefore gs all rest) :
    statement (depth + 1) gs = .ok (.whileLoop c (ss.map Prod.fst) p, rest) := by
  subst hls
  simp only [List.length_append, List.length_cons] at hbound
  have hplace := h.place_eq
  obtain ⟨gs₄, h, hend⟩ := h.exists_of_append
  obtain ⟨gs₂, h, hdo⟩ := h.exists_of_append
  obtain ⟨gs₁, hword, hcondition⟩ := h.exists_of_cons
  obtain ⟨gs₃, hdo, hreads⟩ := hdo.exists_of_cons
  obtain ⟨_, hend, hnil⟩ := hend.exists_of_cons
  cases hnil
  have hcondition := accepts_expression depth hc (by omega) hcondition (.of_closer hdo (by decide))
  have hss := hblock hss (by omega) hreads ⟨_, by decide, _, hend⟩
  rw [hword.statement_eq rfl, hplace]
  simp only [whileLoop, bind_eq_ok, pure_eq_ok]
  exact ⟨_, _, hcondition, _, _, hdo.word_eq, _, _, hss, _, _, hend.word_eq, rfl, rfl⟩

end Statements

/-! ## All statements -/

theorem SpellsStatement.ne_nil {N : String → Prop} {s : Node} {ls : List Lexeme}
    (h : SpellsStatement N s ls) : ls ≠ [] := by
  cases h <;> simp

theorem acceptsBlock_many {depth : Nat}
    (h : Accepts depth (statement depth) (SpellsStatement PlainName) fun _ => True) :
    AcceptsBlock depth (many (statement depth) depth) := by
  rintro bs gs rest hbs hbound hr ⟨t, ht, _, hend⟩
  exact accepts_many h (fun s hs => hs.ne_nil rfl) (fun _ _ _ _ _ _ => trivial) hbs hbound
    (Nat.le_of_lt hbound) hr trivial (statement_eq_mismatch hend ht)

theorem accepts_statement (depth : Nat) :
    Accepts depth (statement depth) (SpellsStatement PlainName) fun _ => True := by
  induction depth with
  | zero =>
    intro s ls gs rest _ hbound
    exact absurd hbound (Nat.not_lt_zero _)
  | succ depth ih =>
    have hblock := acceptsBlock_many ih
    intro s ls gs rest hspells hbound h _
    cases hspells with
    | declaration _ ht hv => exact accepts_declaration ht hv rfl hbound h
    | switch ks default hc hvalues hblocks hdefault =>
      exact accepts_switch hblock ks default hc hvalues hblocks hdefault rfl hbound h
    | conditional ts es hc hts hes hels =>
      exact accepts_conditional hblock ts es hc hts hes hels rfl hbound h
    | whileLoop ss hc hss => exact accepts_whileLoop hblock ss hc hss rfl hbound h
    | returning he => exact accepts_returning he rfl hbound h
    | assignment he hv => exact accepts_assignment he hv rfl hbound h
    | expressionStatement he => exact accepts_expressionStatement he rfl hbound h

end PlcLang.Grammar
