import PlcLang.Proofs.Grammar.Complete.Statement

/-!
# Programs that are spelled are parsed

* `accepts_global`, `accepts_function`: the parts of a program.
* `Node.ofGlyphs_of_spells`: a text that spells a program is parsed as this program.
-/

namespace PlcLang.Grammar

variable {gs rest : List Glyph} {depth : Nat}

/-! ## Globals -/

theorem typeName_eq {t : String} {p q : Place} {ls : List Lexeme}
    (h : Reads Token.ReadableBefore gs (⟨.mark ":", p⟩ :: ⟨.name t, q⟩ :: ls) rest) :
    ∃ gs', typeName gs = .ok (t, gs') ∧ Reads Token.ReadableBefore gs' ls rest := by
  obtain ⟨gs₁, hcolon, h⟩ := h.exists_of_cons
  obtain ⟨gs₂, hname, h⟩ := h.exists_of_cons
  refine ⟨gs₂, ?_, h⟩
  simp only [typeName, bind_eq_ok]
  exact ⟨_, _, hcolon.mark_eq, hname.name_eq⟩

/-- The words with which globals begin. -/
def globalWords : List String := ["LIST", "VAR", "VAL"]

theorem globalWords_subset : globalWords ⊆ keywords := by decide

/-- A word at its beginning decides which global is read. -/
theorem Offers.global_eq {w : String} {p : Parser Node} {node : Node} {gs₁ gs₂ : List Glyph}
    (h : Offers gs (.word w) gs₁)
    (hp : (wordedGlobals (nextPlace gs) (expression depth) depth).lookup w = some p)
    (hnode : p gs₁ = .ok (node, gs₂)) (hend : Offers gs₂ (.mark ";") rest) :
    global (expression depth) depth gs = .ok (node, rest) := by
  have hword : byWord (wordedGlobals (nextPlace gs) (expression depth) depth) refuse gs = p gs₁ :=
    h.byWord_eq globalWords_subset hp
  unfold global
  rw [bind_of_ok (here_eq gs), bind_of_ok (hword.trans hnode), bind_of_ok hend.mark_eq]
  rfl

theorem accepts_global (depth : Nat) :
    Accepts depth (global (expression depth) depth) (SpellsGlobal PlainName) fun _ => True := by
  intro g ls gs rest hspells hbound h _
  have hexpression := accepts_expression depth
  cases hspells with
  | @list s t e ls els p _ _ _ _ _ _ _ es hs ht hes hls =>
    have hplace := h.place_eq
    simp only [List.length_append, List.length_cons] at hbound
    obtain ⟨gs₆, h, hclose⟩ := h.exists_of_append
    obtain ⟨gs₅, h, hcommas⟩ := h.exists_of_append
    obtain ⟨gs₁, hword, h⟩ := h.exists_of_cons
    obtain ⟨gs₂, hname, h⟩ := h.exists_of_cons
    obtain ⟨gs₃, htype, h⟩ := typeName_eq h
    obtain ⟨gs₄, hmark, h⟩ := h.exists_of_cons
    obtain ⟨gs₇, hopen, hfirst⟩ := h.exists_of_cons
    obtain ⟨gs₈, hclose, h⟩ := hclose.exists_of_cons
    obtain ⟨gs₉, hend, hnil⟩ := h.exists_of_cons
    cases hnil
    obtain ⟨he, hes⟩ := List.forall_mem_cons.mp hes
    have hclear : Clear (some .logical) gs₆ := .of_closer hclose (by decide)
    have hlength : els.length < depth := by omega
    have he := hexpression he hlength hfirst
      (holds_before_commas (fun h => .of_closer h (by decide)) hls hcommas hclear)
    have hes := accepts_afterCommas hexpression (fun h => .of_closer h (by decide)) hes hls (by omega)
      (n := depth) (by omega) hcommas hclear (hclose.mark_eq_mismatch (by decide) (by decide))
    refine hword.global_eq rfl ?_ hend
    simp only [globalList, separated, bind_eq_ok, pure_eq_ok, hplace]
    exact ⟨_, _, hname.name_eq, _, _, htype, _, _, hmark.mark_eq, _, _, hopen.mark_eq, _, _,
      ⟨_, _, he, _, _, hes, rfl, rfl⟩, _, _, hclose.mark_eq, rfl, rfl⟩
  | @mutable s t value ls p _ _ _ _ hs ht hv =>
    have hplace := h.place_eq
    simp only [List.length_append, List.length_cons] at hbound
    obtain ⟨gs₄, h, hend⟩ := h.exists_of_append
    obtain ⟨gs₁, hword, h⟩ := h.exists_of_cons
    obtain ⟨gs₂, hname, h⟩ := h.exists_of_cons
    obtain ⟨gs₃, htype, hvalue⟩ := typeName_eq h
    obtain ⟨gs₅, hend, hnil⟩ := hend.exists_of_cons
    cases hnil
    have hlength : ls.length ≤ depth := by omega
    refine hword.global_eq rfl ?_ hend
    simp only [globalVariable, bind_eq_ok, pure_eq_ok, hplace]
    exact ⟨_, _, hname.name_eq, _, _, htype, _, _, value_eq hv hlength hvalue hend, rfl, rfl⟩
  | @immutable s t value ls p _ _ _ _ _ hs ht he =>
    have hplace := h.place_eq
    simp only [List.length_append, List.length_cons] at hbound
    obtain ⟨gs₅, h, hend⟩ := h.exists_of_append
    obtain ⟨gs₁, hword, h⟩ := h.exists_of_cons
    obtain ⟨gs₂, hname, h⟩ := h.exists_of_cons
    obtain ⟨gs₃, htype, h⟩ := typeName_eq h
    obtain ⟨gs₄, hmark, hread⟩ := h.exists_of_cons
    obtain ⟨gs₆, hend, hnil⟩ := hend.exists_of_cons
    cases hnil
    have he := hexpression he (by omega) hread (.of_closer hend (by decide))
    refine hword.global_eq rfl ?_ hend
    simp only [globalConstant, bind_eq_ok, pure_eq_ok, hplace]
    exact ⟨_, _, hname.name_eq, _, _, htype, _, _, hmark.mark_eq, _, _, he, rfl, rfl⟩

/-- No global begins with the word of functions. -/
theorem Offers.globalWord_eq_mismatch {w : String} (h : Offers gs (.word "FUN") rest)
    (hw : w ∈ globalWords) : word w gs = .error .mismatch := by
  have hne : ∀ w ∈ globalWords, Token.word "FUN" ≠ .word w := by decide
  exact h.word_eq_mismatch trivial (globalWords_subset hw) (hne w hw)

theorem global_eq_mismatch {expression : Parser Node} {bound : Nat}
    (h : ∀ w ∈ globalWords, word w gs = .error .mismatch) :
    global expression bound gs = .error .mismatch := by
  have hwords : byWord (wordedGlobals (nextPlace gs) expression bound) refuse gs = refuse gs :=
    byWord_of_mismatch h
  unfold global
  rw [bind_of_ok (here_eq gs), bind_of_error (hwords.trans rfl)]

/-! ## Functions -/

theorem accepts_parameter (bound : Nat) :
    Accepts bound parameter (SpellsParameter PlainName) fun _ => True := by
  rintro _ _ gs rest ⟨x, ⟨⟩, -⟩ - h -
  obtain ⟨gs₁, hname, h⟩ := h.exists_of_cons
  obtain ⟨gs₂, htype, hnil⟩ := typeName_eq h
  cases hnil
  simp only [parameter, bind_eq_ok, pure_eq_ok]
  exact ⟨_, _, hname.name_eq, _, _, htype, rfl, rfl⟩

theorem parameter_eq_mismatch {s : String} (h : Offers gs (.mark s) rest) :
    parameter gs = .error .mismatch :=
  bind_of_error (h.name_eq_mismatch fun _ => Token.noConfusion)

theorem accepts_function {block : Parser (List Node)} (hblock : AcceptsBlock depth block) :
    Accepts depth (function block depth) (SpellsFunction PlainName) fun _ => True := by
  intro f ls gs rest hspells hbound h _
  cases hspells with
  | @function s returnName ls rls p _ _ _ _ _ xs ss hs hxs hls ht hss =>
    have hplace := h.place_eq
    simp only [List.length_append, List.length_cons] at hbound
    obtain ⟨gs₈, h, hend⟩ := h.exists_of_append
    obtain ⟨gs₆, h, hdo⟩ := h.exists_of_append
    obtain ⟨gs₄, h, hclose⟩ := h.exists_of_append
    obtain ⟨gs₁, hword, h⟩ := h.exists_of_cons
    obtain ⟨gs₂, hname, h⟩ := h.exists_of_cons
    obtain ⟨gs₃, hopen, hparameters⟩ := h.exists_of_cons
    obtain ⟨gs₅, hclose, htype⟩ := hclose.exists_of_cons
    obtain ⟨gs₇, hdo, hreads⟩ := hdo.exists_of_cons
    obtain ⟨_, hend, hnil⟩ := hend.exists_of_cons
    cases hnil
    have hparameters' : ∀ b ∈ xs.map SpelledParameter.spelled, SpellsParameter PlainName b.1 b.2 := by
      intro b hb
      obtain ⟨x, hx, rfl⟩ := List.mem_map.mp hb
      exact ⟨x, rfl, hxs x hx⟩
    have hls : PerhapsSeparated ((xs.map SpelledParameter.spelled).map Prod.snd) ls := by
      rw [List.map_map]
      exact hls
    have hparameters := accepts_perhapsSeparated (accepts_parameter depth)
      (fun hcomma => ⟨trivial, parameter_eq_mismatch hcomma⟩) hparameters' hls (by omega) (n := depth)
      (by omega) hparameters trivial (hclose.mark_eq_mismatch (by decide) (by decide))
      (parameter_eq_mismatch hclose)
    have htype := type_eq ht htype (hdo.mark_eq_mismatch_of_letter rfl (by decide))
    have hss := hblock hss (by omega) hreads ⟨_, by decide, _, hend⟩
    simp only [function, bind_eq_ok, here_eq_ok, pure_eq_ok]
    refine ⟨_, _, ⟨rfl, rfl⟩, _, _, hword.word_eq, _, _, hname.name_eq, _, _, hopen.mark_eq, _, _,
      hparameters, _, _, hclose.mark_eq, _, _, htype, _, _, hdo.word_eq, _, _, hss, _, _, hend.word_eq,
      ?_, rfl⟩
    simp only [hplace, List.map_map]
    rfl

theorem function_eq_mismatch {block : Parser (List Node)} {bound : Nat}
    (h : word "FUN" gs = .error .mismatch) : function block bound gs = .error .mismatch := by
  unfold function
  rw [bind_of_ok (here_eq gs), bind_of_error h]

/-! ## Programs -/

theorem SpellsGlobal.ne_nil {N : String → Prop} {g : Node} {ls : List Lexeme}
    (h : SpellsGlobal N g ls) : ls ≠ [] := by
  cases h <;> simp

theorem SpellsFunction.exists_eq_cons {N : String → Prop} {f : Node} {ls : List Lexeme}
    (h : SpellsFunction N f ls) : ∃ p ls', ls = ⟨.word "FUN", p⟩ :: ls' := by
  cases h
  exact ⟨_, _, rfl⟩

end PlcLang.Grammar

namespace PlcLang

open Grammar

/-- **Every tree that a text spells is the tree that is parsed.** -/
theorem Node.ofGlyphs_of_spells {t : Node} {gs rest : List Glyph} {ls : List Lexeme}
    (h : SpellsProgram PlainName t ls) (hr : Reads Token.ReadableBefore gs ls rest)
    (hrest : skipBlanks rest = []) : Node.ofGlyphs gs = .ok t := by
  have hlength := hr.length_le
  have hlead : lead rest = none := by
    unfold lead
    rw [hrest]
    rfl
  have hword {w : String} (hw : w ∈ keywords) : word w rest = .error .mismatch :=
    (leads_word hw).eq_mismatch (by rw [hlead]; nofun)
  cases h with
  | source bs cs hbs hcs =>
    obtain ⟨gs₁, hglobals, hfunctions⟩ := hr.exists_of_append
    rw [List.length_append] at hlength
    have hfun : (∃ gs', Offers gs₁ (.word "FUN") gs') ∨ cs = [] ∧ gs₁ = rest := by
      cases cs with
      | nil =>
        cases hfunctions
        exact .inr ⟨rfl, rfl⟩
      | cons c cs =>
        rw [List.flatMap_cons] at hfunctions
        obtain ⟨p, ls', hc⟩ := (hcs c List.mem_cons_self).exists_eq_cons
        rw [hc] at hfunctions
        obtain ⟨gs₂, hword, -⟩ := hfunctions.exists_of_cons
        exact .inl ⟨gs₂, hword⟩
    have hstop : ∀ w ∈ globalWords, word w gs₁ = .error .mismatch := by
      intro w hw
      rcases hfun with ⟨gs', hoffers⟩ | ⟨-, rfl⟩
      · exact hoffers.globalWord_eq_mismatch hw
      · exact hword (globalWords_subset hw)
    have hglobals := accepts_many (accepts_global (gs.length + 2)) (fun _ h => h.ne_nil rfl)
      (fun _ _ _ _ _ _ => trivial) hbs (by omega) (n := gs.length + 2) (by omega) hglobals trivial
      (global_eq_mismatch hstop)
    have hfunctions := accepts_many
      (accepts_function (acceptsBlock_many (accepts_statement (gs.length + 2))))
      (fun _ h => by obtain ⟨_, _, ⟨⟩⟩ := h.exists_eq_cons) (fun _ _ _ _ _ _ => trivial) hcs (by omega)
      (n := gs.length + 2) (by omega) hfunctions trivial (function_eq_mismatch (hword (by decide)))
    have hprogram : program (gs.length + 2) gs =
        .ok (.source (bs.map Prod.fst) (cs.map Prod.fst), []) := by
      simp only [program, bind_eq_ok, pure_eq_ok]
      exact ⟨_, _, hglobals, _, _, hfunctions, (), _, finish_eq_ok.mpr ⟨hrest, rfl⟩, rfl, rfl⟩
    unfold Node.ofGlyphs
    rw [hprogram]
    rfl

end PlcLang
