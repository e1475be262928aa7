import PlcLang.Proofs.Grammar.Complete.Program
import PlcLang.Proofs.Grammar.Sound
import PlcLang.Proofs.Grammar.Tokens
import PlcLang.Proofs.Grammar.Written

/-!
# Declared names and used names

Every name can be declared. Where an expression is read, literals are tried before names, and the
words among them end where no letter and no digit follows. So a name that goes on with `_` or `-`
after such a word is never read as a name there: `NIL_a` can be declared, but it cannot be used.

* `BeginsWithLiteral`: these names.
* `Offers.literal_eq_mismatch_iff`: a name is taken for a literal exactly if it is one of them.
* `expression_eq_of_name`, `not_beginsWithLiteral`: the other names are expressions, and only they.
* `Node.parse?_uses_name_iff`: the programs that declare and return a name.
-/

namespace PlcLang

namespace Grammar

variable {gs rest : List Glyph} {s : String}

/-! ## Names before literals -/

/-- The name begins with a literal and a `_` or `-` behind it. -/
def BeginsWithLiteral (s : String) : Prop :=
  ∃ w ∈ literalWords, ∃ c ∈ ['_', '-'], w.toList ++ [c] <+: s.toList

instance (s : String) : Decidable (BeginsWithLiteral s) :=
  decidable_of_iff ((literalWords.any fun w => ['_', '-'].any fun c =>
    (w.toList ++ [c]).isPrefixOf s.toList) = true) (by simp [BeginsWithLiteral])

/-- No literal word is read exactly if the name does not begin with one. -/
theorem Offers.words_eq_mismatch_iff (h : Offers gs (.name s) rest) :
    (∀ w ∈ literalWords, word w gs = .error .mismatch) ↔ ¬ BeginsWithLiteral s := by
  constructor
  · rintro hwords ⟨w, hw, c, hc, hbegins⟩
    have halphanum : ∀ c ∈ ['_', '-'], c.isAlphanum = false :=
      List.forall_mem_cons.mpr ⟨rfl, List.forall_mem_singleton.mpr rfl⟩
    obtain ⟨_, hword⟩ := h.exists_word_eq_of_name hbegins (halphanum c hc)
    cases hword.symm.trans (hwords w hw)
  · intro hs w hw
    have hkeyword : ∀ w ∈ literalWords, w ∈ keywords := by decide
    exact h.word_eq_mismatch_of_name (hkeyword w hw) fun c hc hbegins => hs ⟨w, hw, c, hc, hbegins⟩

/-- A name is taken for a literal exactly if it begins with one. -/
theorem Offers.literal_eq_mismatch_iff {p : Place} (h : Offers gs (.name s) rest) :
    literal p gs = .error .mismatch ↔ ¬ BeginsWithLiteral s := by
  have hwordless : wordlessLiteral p gs = .error .mismatch :=
    wordlessLiteral_eq_mismatch fun k hk => .inl (Option.some.inj (hk.symm.trans h.lead_eq))
  rw [← h.words_eq_mismatch_iff]
  simp only [literal, byWord, commit_pure_eq_mismatch, hwordless, and_true, literalWords,
    List.forall_mem_cons, List.not_mem_nil, false_implies, implies_true]

/-! ## Expressions -/

section Expressions

variable {bound depth : Nat} {ops : List Operator} {operand : Parser Node} {e : Node}

theorem isBinary_joined (p : Place) (first : Node) {os : List (Operator × Node)} (h : os ≠ []) :
    (joined p first os).isBinary = true := by
  rcases List.eq_nil_or_concat os with rfl | ⟨os, o, rfl⟩
  · exact absurd rfl h
  · simp [joined, Node.isBinary]

/-- An operand that no operator follows is the whole chain. -/
theorem chain_eq (h : operand gs = .ok (e, rest)) (hops : operator ops rest = .error .mismatch) :
    chain bound ops operand gs = .ok (e, rest) := by
  simp only [chain, bind_eq_ok, here_eq_ok, pure_eq_ok]
  exact ⟨_, _, ⟨rfl, rfl⟩, e, rest, h, [], rest, many_of_mismatch (operation_eq_mismatch hops) bound, rfl, rfl⟩

/-- A chain that is no operation is an operand. -/
theorem exists_operand_of_chain (h : chain bound ops operand gs = .ok (e, rest))
    (he : e.isBinary = false) : ∃ rest', operand gs = .ok (e, rest') := by
  simp only [chain, bind_eq_ok, here_eq_ok, pure_eq_ok] at h
  obtain ⟨p, _, ⟨-, rfl⟩, first, rest', hfirst, os, _, -, rfl, -⟩ := h
  by_cases hos : os = []
  · subst hos
    exact ⟨rest', hfirst⟩
  · cases (isBinary_joined p first hos).symm.trans he

theorem expression_eq_of_operand
    (h : Grammar.operand depth (expression depth) gs = .ok (e, rest))
    (hclear : Clear (some .logical) rest) : expression (depth + 1) gs = .ok (e, rest) := by
  have hops (l : Level) : operator l.operators rest = .error .mismatch :=
    operator_eq_mismatch fun o ho => hclear.operator (Level.mem_operators.mp ho) (Nat.zero_le _)
  exact chain_eq (chain_eq (chain_eq (chain_eq h (hops .multiplicative)) (hops .additive))
    (hops .comparison)) (hops .logical)

theorem exists_operand_of_expression (h : expression (depth + 1) gs = .ok (e, rest))
    (he : e.isBinary = false) :
    ∃ rest', Grammar.operand depth (expression depth) gs = .ok (e, rest') := by
  obtain ⟨_, h⟩ := exists_operand_of_chain h he
  obtain ⟨_, h⟩ := exists_operand_of_chain h he
  obtain ⟨_, h⟩ := exists_operand_of_chain h he
  exact exists_operand_of_chain h he

theorem expression_eq_of_literal {t : Token} {v : Value} (h : Offers gs t rest) (hfits : t.Fits)
    (hclear : Clear (some .logical) rest) (hv : t.value? = some v) :
    expression (depth + 1) gs = .ok (.literal v none (nextPlace gs), rest) := by
  refine expression_eq_of_operand ?_ hclear
  unfold Grammar.operand
  rw [bind_of_ok (here_eq _), commit_of_ok (h.literal_eq hfits hv)]
  rfl

/-- A name that is not taken for a literal is an expression. -/
theorem expression_eq_of_name (h : Offers gs (.name s) rest) (hclear : Clear (some .logical) rest)
    (hs : ¬ BeginsWithLiteral s) :
    expression (depth + 1) gs = .ok (.access (some s) .missing none none (nextPlace gs), rest) := by
  refine expression_eq_of_operand ?_ hclear
  unfold Grammar.operand
  rw [bind_of_ok (here_eq _), commit_of_mismatch (h.literal_eq_mismatch_iff.mpr hs),
    commit_of_mismatch (h.mark_eq_mismatch_of_letter rfl (by decide)), bind_of_ok h.name_eq,
    commit_of_mismatch hclear.parenthesis, commit_of_mismatch hclear.bracket]
  rfl

/-- Only such a name is read as an access. -/
theorem not_beginsWithLiteral (h : Offers gs (.name s) rest) {rest' : List Glyph} {name : Name}
    {offset : Node} {ty : Option Ty} {b : Option VariableRef} {p : Place}
    (he : expression depth gs = .ok (.access name offset ty b p, rest')) : ¬ BeginsWithLiteral s := by
  cases depth with
  | zero => cases he
  | succ depth =>
    obtain ⟨_, hoperand⟩ := exists_operand_of_expression he rfl
    simp only [Grammar.operand, bind_eq_ok, here_eq_ok] at hoperand
    obtain ⟨place, _, ⟨-, rfl⟩, hoperand⟩ := hoperand
    rw [← h.literal_eq_mismatch_iff (p := place)]
    rcases commit_eq_ok.mp hoperand with ⟨_, _, hliteral, haccess⟩ | ⟨hliteral, -⟩
    · obtain ⟨_, v, -, -, -, rfl, -⟩ := readsAs_literal hliteral
      cases haccess
    · exact hliteral

end Expressions

/-! ## A function without parameters -/

/-- The next tokens. -/
def OffersAll (gs : List Glyph) : List Token → List Glyph → Prop
  | [], rest => gs = rest
  | t :: ts, rest => ∃ gs', Offers gs t gs' ∧ OffersAll gs' ts rest

/-- A text that is laid out offers its tokens and nothing else. -/
theorem LaidOut.exists_offersAll {ts : List Token} {text : String} (h : LaidOut ts text.toList) :
    ∃ rest, OffersAll (locate text) ts rest ∧ skipBlanks rest = [] := by
  obtain ⟨ls, rest, rfl, hreads, hrest⟩ := h.exists_reads (map_char_locate text)
  clear h
  generalize locate text = gs at hreads
  refine ⟨rest, ?_, hrest⟩
  clear hrest
  induction hreads with
  | nil => rfl
  | cons ht hsplits hend _ ih => exact ⟨_, ⟨_, ht, hsplits, hend⟩, ih⟩

theorem offersAll_append {ts ts' : List Token} : OffersAll gs (ts ++ ts') rest ↔
    ∃ gs', OffersAll gs ts gs' ∧ OffersAll gs' ts' rest := by
  induction ts generalizing gs with
  | nil => exact ⟨fun h => ⟨gs, rfl, h⟩, fun ⟨_, rfl, h⟩ => h⟩
  | cons t ts ih =>
    constructor
    · rintro ⟨gs₁, ht, h⟩
      obtain ⟨gs', h, h'⟩ := ih.mp h
      exact ⟨gs', ⟨gs₁, ht, h⟩, h'⟩
    · rintro ⟨gs', ⟨gs₁, ht, h⟩, h'⟩
      exact ⟨gs₁, ht, ih.mpr ⟨gs', h, h'⟩⟩

/-- The tokens in front of the statements of a function `main` without parameters. -/
def mainTokens (returnType : Name) : List Token :=
  [.word "FUN", .name "main", .mark "(", .mark ")"] ++ (returnType.typeTokens ++ [.word "DO"])

/-- The glyphs are read as a function `main` whose statements begin at `inside`. -/
structure Heads (returnType : Name) (gs inside : List Glyph) : Prop where
  /-- There are no globals. -/
  global (depth : Nat) : global (expression depth) depth gs = .error .mismatch
  /-- The function is read as its statements are. -/
  function (block : Parser (List Node)) (depth : Nat) : function block depth gs = (do
    let ss ← block
    word "END"
    return .function (some "main") [] [] returnType ss none (nextPlace gs) : Parser Node) inside

section Main

variable {inside : List Glyph} {statement : Node} {returnType : Name}

theorem type_eq_of_offersAll {gs' : List Glyph} (h : OffersAll gs returnType.typeTokens gs')
    (hdo : Offers gs' (.word "DO") rest) : after ":" (some <$> name) none gs = .ok (returnType, gs') := by
  cases returnType with
  | none =>
    cases h
    exact commit_of_mismatch (hdo.mark_eq_mismatch_of_letter rfl (by decide))
  | some t =>
    obtain ⟨_, hcolon, _, hname, rfl⟩ := h
    unfold after
    rw [commit_of_ok hcolon.mark_eq, map_eq_ok]
    exact ⟨_, hname.name_eq, rfl⟩

theorem exists_heads {ts : List Token} (h : OffersAll gs (mainTokens returnType ++ ts) rest) :
    ∃ inside, Heads returnType gs inside ∧ OffersAll inside ts rest := by
  obtain ⟨gs₅, hhead, h⟩ := offersAll_append.mp h
  obtain ⟨gs₄, ⟨gs₁, hfun, gs₂, hname, gs₃, hopen, _, hclose, rfl⟩, htail⟩ := offersAll_append.mp hhead
  obtain ⟨gs₆, htype, _, hdo, rfl⟩ := offersAll_append.mp htail
  refine ⟨_, ⟨fun depth => ?_, fun block depth => ?_⟩, h⟩
  · exact global_eq_mismatch fun w hw => hfun.globalWord_eq_mismatch hw
  · have hparameters : perhapsSeparated parameter depth gs₃ = .ok ([], gs₃) := by
      unfold perhapsSeparated
      rw [commit_of_mismatch (parameter_eq_mismatch hclose)]
      exact afterCommas_of_mismatch (hclose.mark_eq_mismatch (by decide) (by decide)) depth
    unfold Grammar.function
    rw [bind_of_ok (here_eq gs), bind_of_ok hfun.word_eq, bind_of_ok hname.name_eq,
      bind_of_ok hopen.mark_eq, bind_of_ok hparameters, bind_of_ok hclose.mark_eq,
      bind_of_ok (type_eq_of_offersAll htype hdo), bind_of_ok hdo.word_eq]
    rfl

theorem many_singleton {α : Type} {p : Parser α} {a : α} {n : Nat} (h : p gs = .ok (a, rest))
    (hstop : p rest = .error .mismatch) : many p (n + 1) gs = .ok ([a], rest) := by
  unfold many
  rw [commit_of_ok h, bind_of_ok (many_of_mismatch hstop n)]
  rfl

theorem exists_of_many {α : Type} {p : Parser α} {n : Nat} {a : α} {as : List α}
    (h : many p n gs = .ok (a :: as, rest)) : ∃ gs', p gs = .ok (a, gs') := by
  cases n with
  | zero => cases h
  | succ n =>
    unfold many at h
    simp only [commit_eq_ok, bind_eq_ok, pure_eq_ok] at h
    rcases h with ⟨_, gs', ha, _, _, -, ⟨⟩, -⟩ | ⟨-, ⟨⟩, -⟩
    exact ⟨gs', ha⟩

/-- The program with one function `main` that consists of one statement. -/
def mainOf (statement : Node) (place : Place) : Node :=
  .source [] [.function (some "main") [] [] none [statement] none place]

theorem skeleton_mainOf (place : Place) :
    (mainOf statement place).skeleton = mainOf statement.skeleton .unknown := rfl

section Text

variable {text : String} (h : Heads none (locate text) inside)
include h

/-- A statement that the end of the function follows makes up the program. -/
theorem Heads.parse?_eq {gs' : List Glyph}
    (hs : Grammar.statement ((locate text).length + 2) inside = .ok (statement, gs'))
    (hend : Offers gs' (.word "END") rest) (hrest : skipBlanks rest = []) :
    (Node.parse? text).map Node.skeleton = some (mainOf statement .unknown).skeleton := by
  have hlead : lead rest = none := by
    unfold lead
    rw [hrest]
    rfl
  have hword : word "FUN" rest = .error .mismatch :=
    (leads_word (by decide)).eq_mismatch (by rw [hlead]; nofun)
  have hblock := many_singleton (n := (locate text).length + 1) hs
    (statement_eq_mismatch hend (by decide))
  have hfunction : Grammar.function
      (many (Grammar.statement ((locate text).length + 2)) ((locate text).length + 2))
      ((locate text).length + 2) (locate text) =
        .ok (.function (some "main") [] [] none [statement] none (nextPlace (locate text)), rest) := by
    rw [h.function, bind_of_ok hblock, bind_of_ok hend.word_eq]
    rfl
  have hfinish : finish rest = .ok ((), []) := finish_eq_ok.mpr ⟨hrest, rfl⟩
  have hparse : Node.parse text = .ok (mainOf statement (nextPlace (locate text))) := by
    refine Node.ofGlyphs_eq_ok_iff.mpr ⟨[], ?_⟩
    unfold program
    rw [bind_of_ok (many_of_mismatch (h.global _) _),
      bind_of_ok (many_singleton hfunction (function_eq_mismatch hword)), bind_of_ok hfinish]
    rfl
  rw [Node.parse?_eq_some_iff.mpr hparse]
  rfl

/-- The statement of a program that is read begins behind the header. -/
theorem Heads.exists_statement
    (ht : (Node.parse? text).map Node.skeleton = some (mainOf statement .unknown)) :
    ∃ s gs', Grammar.statement ((locate text).length + 2) inside = .ok (s, gs') ∧
      s.skeleton = statement := by
  obtain ⟨t, ht, hskeleton⟩ := Option.map_eq_some_iff.mp ht
  obtain ⟨_, ht⟩ := Node.ofGlyphs_eq_ok_iff.mp (Node.parse?_eq_some_iff.mp ht)
  simp only [program, bind_eq_ok, pure_eq_ok] at ht
  obtain ⟨_, _, hglobals, fs, _, hfunctions, -, -, -, rfl, -⟩ := ht
  cases (many_of_mismatch (h.global _) _).symm.trans hglobals
  cases fs with
  | nil => cases hskeleton
  | cons f fs =>
    obtain ⟨_, hf⟩ := exists_of_many hfunctions
    rw [h.function] at hf
    simp only [bind_eq_ok, pure_eq_ok] at hf
    obtain ⟨ss, _, hblock, -, -, -, rfl, -⟩ := hf
    simp only [mainOf, Node.skeleton, Node.skeletons, Node.source.injEq,
      List.cons.injEq, Node.function.injEq] at hskeleton
    obtain ⟨-, ⟨-, -, -, -, hss, -⟩, -⟩ := hskeleton
    cases ss with
    | nil => cases hss
    | cons s ss =>
      obtain ⟨gs', hs⟩ := exists_of_many hblock
      exact ⟨s, gs', hs, (List.cons.inj hss).1⟩

end Text

end Main

/-! ## A declaration and a return -/

section Statements

variable {depth : Nat}

/-- A name is declared. -/
theorem statement_declaration
    (h : OffersAll gs [.word "LET", .name s, .mark "=", .integer 1, .mark ";", .word "END"] rest) :
    ∃ n gs', statement (depth + 2) gs = .ok (n, gs') ∧ Offers gs' (.word "END") rest ∧
      n.skeleton = .declaration (some s) none (.literal (.integer 1) none .unknown) none .unknown := by
  obtain ⟨gs₁, hlet, gs₂, hname, gs₃, hmark, gs₄, hone, gs₅, hclose, _, hend, rfl⟩ := h
  have htype : after ":" (some <$> name) none gs₂ = .ok (none, gs₂) :=
    commit_of_mismatch (hmark.mark_eq_mismatch (by decide) (by decide))
  have hvalue : after "=" (expression (depth + 1)) .missing gs₂ =
      .ok (.literal (.integer 1) none (nextPlace gs₃), gs₄) := by
    unfold after
    rw [commit_of_ok hmark.mark_eq]
    exact expression_eq_of_literal hone (by decide) (.of_closer hclose (by decide)) rfl
  refine ⟨.declaration (some s) none (.literal (.integer 1) none (nextPlace gs₃)) none (nextPlace gs),
    gs₅, ?_, hend, rfl⟩
  rw [hlet.statement_eq rfl, declaration, bind_of_ok hname.name_eq, bind_of_ok htype, bind_of_ok hvalue,
    bind_of_ok hclose.mark_eq]
  rfl

/-- An expression of one token is returned. -/
theorem statement_returned {t : Token} {e : Node}
    (h : OffersAll gs [.word "RETURN", t, .mark ";", .word "END"] rest)
    (he : ∀ {gs₁ gs₂}, Offers gs₁ t gs₂ → Clear (some .logical) gs₂ →
      ∃ e', expression (depth + 1) gs₁ = .ok (e', gs₂) ∧ e'.skeleton = e) :
    ∃ n gs', statement (depth + 2) gs = .ok (n, gs') ∧ Offers gs' (.word "END") rest ∧
      n.skeleton = .returning e .unknown := by
  obtain ⟨gs₁, hreturn, gs₂, ht, gs₃, hclose, _, hend, rfl⟩ := h
  obtain ⟨e', he', rfl⟩ := he ht (.of_closer hclose (by decide))
  refine ⟨.returning e' (nextPlace gs), gs₃, ?_, hend, rfl⟩
  rw [hreturn.statement_eq rfl, returning, bind_of_ok he', bind_of_ok hclose.mark_eq]
  rfl

/-- A name is returned. -/
theorem statement_returning
    (h : OffersAll gs [.word "RETURN", .name s, .mark ";", .word "END"] rest)
    (hs : ¬ BeginsWithLiteral s) :
    ∃ n gs', statement (depth + 2) gs = .ok (n, gs') ∧ Offers gs' (.word "END") rest ∧
      n.skeleton = .returning (.access (some s) .missing none none .unknown) .unknown :=
  statement_returned h fun hname hclear => ⟨_, expression_eq_of_name hname hclear hs, rfl⟩

/-- Only such a name is returned. -/
theorem not_beginsWithLiteral_of_returning {gs' : List Glyph} {n : Node}
    (h : OffersAll gs [.word "RETURN", .name s, .mark ";", .word "END"] rest)
    (hn : statement (depth + 2) gs = .ok (n, gs'))
    (hskeleton : n.skeleton = .returning (.access (some s) .missing none none .unknown) .unknown) :
    ¬ BeginsWithLiteral s := by
  obtain ⟨gs₁, hreturn, gs₂, hname, -⟩ := h
  rw [hreturn.statement_eq rfl] at hn
  simp only [returning, bind_eq_ok, pure_eq_ok] at hn
  obtain ⟨e, _, he, -, -, -, rfl, -⟩ := hn
  cases e with
  | access => exact not_beginsWithLiteral hname he
  | _ => cases hskeleton

end Statements

/-! ## Texts -/

section Texts

variable {t : Token} {ts : List Token} {cs : List Char}

theorem LaidOut.adjoin (ht : t.IsProper) (hcs : ∀ c ∈ cs.head?, t.continuedBy c = false)
    (h : LaidOut ts cs) : LaidOut (t :: ts) (t.written ++ cs) :=
  .token (List.forall_mem_nil _) (Token.spelling_written ht) hcs h

theorem LaidOut.space (ht : t.IsProper) (hcs : ∀ c ∈ cs.head?, t.continuedBy c = false)
    (h : LaidOut ts cs) : LaidOut (t :: ts) (' ' :: t.written ++ cs) := by
  have hblank : ∀ c ∈ [' '], isBlank c = true := List.forall_mem_singleton.mpr rfl
  exact .token hblank (Token.spelling_written ht) hcs h

theorem blank_next (t : Token) (cs : List Char) : ∀ c ∈ (' ' :: cs).head?, t.continuedBy c = false := by
  rintro _ ⟨⟩
  exact continuedBy_blank t

/-- The statements of `main` are followed by the end of the text. -/
theorem laidOut_semicolon : LaidOut [.mark ";", .word "END"] "; END".toList := by
  have hend : LaidOut [.word "END"] (' ' :: "END".toList ++ []) :=
    .space (t := .word "END") (show "END" ∈ keywords by decide) nofun
      (.blanks (List.forall_mem_nil _))
  exact .adjoin (t := .mark ";") (show ";" ∈ marks by decide) (blank_next _ _) hend

/-- The text of a return type. -/
def typeText : Name → List Char
  | some t => ": ".toList ++ t.toList
  | none => []

theorem laidOut_type {returnType : Name} (htype : ∀ t, returnType = some t → IsIdentifier t)
    (h : LaidOut ts (' ' :: cs)) :
    LaidOut (returnType.typeTokens ++ ts) (typeText returnType ++ ' ' :: cs) := by
  cases returnType with
  | none => exact h
  | some t =>
    have hname := LaidOut.space (t := .name t) (htype t rfl) (blank_next _ _) h
    have hcolon := LaidOut.adjoin (t := .mark ":") (show ":" ∈ marks by decide) (fun _ _ => rfl) hname
    simpa [typeText, Name.typeTokens, Token.written] using hcolon

theorem laidOut_main (returnType : Name) (htype : ∀ t, returnType = some t → IsIdentifier t)
    (h : LaidOut ts (' ' :: cs)) :
    LaidOut (mainTokens returnType ++ ts)
      ("FUN main()".toList ++ typeText returnType ++ " DO".toList ++ ' ' :: cs) := by
  have hdo := LaidOut.space (t := .word "DO") (show "DO" ∈ keywords by decide) (blank_next _ _) h
  have hclose := LaidOut.adjoin (t := .mark ")") (show ")" ∈ marks by decide) (fun _ _ => rfl)
    (laidOut_type htype hdo)
  have hopen := LaidOut.adjoin (t := .mark "(") (show "(" ∈ marks by decide) (fun _ _ => rfl) hclose
  have hname := LaidOut.space (t := .name "main")
    (show IsIdentifier "main" by decide) (by rintro _ ⟨⟩; rfl) hopen
  have hfun := LaidOut.adjoin (t := .word "FUN") (show "FUN" ∈ keywords by decide) (blank_next _ _) hname
  simpa [mainTokens, Token.written] using hfun

theorem laidOut_declaration {s : String} (hs : IsIdentifier s) :
    LaidOut (mainTokens none ++ [.word "LET", .name s, .mark "=", .integer 1, .mark ";", .word "END"])
      ("FUN main() DO LET " ++ s ++ " = 1; END").toList := by
  have hvalue := LaidOut.space (t := .integer 1) trivial (by rintro _ ⟨⟩; rfl) laidOut_semicolon
  have hmark := LaidOut.space (t := .mark "=") (show "=" ∈ marks by decide) (blank_next _ _) hvalue
  have hname := LaidOut.space (t := .name s) hs (blank_next _ _) hmark
  have hlet := LaidOut.space (t := .word "LET") (show "LET" ∈ keywords by decide) (blank_next _ _) hname
  have hone : (Token.integer 1).written = ['1'] := rfl
  have hmain := laidOut_main none nofun hlet
  simp only [hone] at hmain
  simpa [Token.written, typeText] using hmain

/-- A token is returned. -/
theorem laidOut_return (returnType : Name) (htype : ∀ t, returnType = some t → IsIdentifier t)
    {w : List Char} (ht : t.Spelling w) (hend : t.continuedBy ';' = false) :
    LaidOut (mainTokens returnType ++ [.word "RETURN", t, .mark ";", .word "END"])
      ("FUN main()".toList ++ typeText returnType ++ " DO".toList ++
        ' ' :: ("RETURN".toList ++ ' ' :: w ++ "; END".toList)) := by
  have hblank : ∀ c ∈ [' '], isBlank c = true := List.forall_mem_singleton.mpr rfl
  have hvalue : LaidOut (t :: [.mark ";", .word "END"]) ([' '] ++ w ++ "; END".toList) :=
    .token hblank ht (by rintro _ ⟨⟩; exact hend) laidOut_semicolon
  have hreturn := LaidOut.space (t := .word "RETURN") (show "RETURN" ∈ keywords by decide)
    (blank_next _ _) hvalue
  exact laidOut_main returnType htype (by simpa [Token.written] using hreturn)

theorem laidOut_returned {s : String} (ht : t.Spelling s.toList) (hend : t.continuedBy ';' = false) :
    LaidOut (mainTokens none ++ [.word "RETURN", t, .mark ";", .word "END"])
      ("FUN main() DO RETURN " ++ s ++ "; END").toList := by
  simpa [typeText] using laidOut_return none nofun ht hend

theorem laidOut_returning {s : String} (hs : IsIdentifier s) :
    LaidOut (mainTokens none ++ [.word "RETURN", .name s, .mark ";", .word "END"])
      ("FUN main() DO RETURN " ++ s ++ "; END").toList := laidOut_returned (.name hs) rfl

end Texts

end Grammar

open Grammar

namespace Node

variable {s : String}

/-- **Every name can be declared, but only those that begin with no literal can be used.** -/
theorem parse?_uses_name_iff (hs : IsIdentifier s) :
    (parse? ("FUN main() DO LET " ++ s ++ " = 1; END")).map skeleton =
        some (mainOf (.declaration (some s) none (.literal (.integer 1) none .unknown) none .unknown)
          .unknown) ∧
      ((parse? ("FUN main() DO RETURN " ++ s ++ "; END")).map skeleton =
          some (mainOf (.returning (.access (some s) .missing none none .unknown) .unknown) .unknown) ↔
        ¬ BeginsWithLiteral s) := by
  constructor
  · obtain ⟨_, hoffers, hrest⟩ := (laidOut_declaration hs).exists_offersAll
    obtain ⟨_, hheads, hinside⟩ := exists_heads hoffers
    obtain ⟨_, _, hstatement, hend, hskeleton⟩ := statement_declaration hinside
    rw [hheads.parse?_eq hstatement hend hrest, skeleton_mainOf, hskeleton]
  · obtain ⟨_, hoffers, hrest⟩ := (laidOut_returning hs).exists_offersAll
    obtain ⟨_, hheads, hinside⟩ := exists_heads hoffers
    constructor
    · intro hparse
      obtain ⟨_, _, hstatement, hskeleton⟩ := hheads.exists_statement hparse
      exact not_beginsWithLiteral_of_returning hinside hstatement hskeleton
    · intro hliteral
      obtain ⟨_, _, hstatement, hend, hskeleton⟩ := statement_returning hinside hliteral
      rw [hheads.parse?_eq hstatement hend hrest, skeleton_mainOf, hskeleton]

/-- A name that begins with a word that is no literal. -/
theorem parse?_uses_keyword_name : IsIdentifier "END-1" ∧ ¬ BeginsWithLiteral "END-1" ∧
    (parse? ("FUN main() DO RETURN " ++ "END-1" ++ "; END")).map skeleton =
      some (mainOf (.returning (.access (some "END-1") .missing none none .unknown) .unknown)
        .unknown) := by
  have hname : IsIdentifier "END-1" := by decide +kernel
  have hliteral : ¬ BeginsWithLiteral "END-1" := by decide +kernel
  exact ⟨hname, hliteral, (parse?_uses_name_iff hname).2.mpr hliteral⟩

/-- A name that can be declared and not used: the rest of it is no expression. -/
theorem parse?_refuses_declared_name : IsIdentifier "NIL_a" ∧
    (parse? "FUN main() DO LET NIL_a = 1; END").isSome = true ∧
    parse? "FUN main() DO RETURN NIL_a; END" = none := by
  refine ⟨by decide +kernel, by decide +kernel, ?_⟩
  rw [← Option.isNone_iff_eq_none]
  decide +kernel

end Node

end PlcLang
