import PlcLang.Proofs.Grammar.Names

/-!
# Numerals that are too long

The parser gives a whole text up at a numeral that is too long, where it expects an integer. Every other
text has a tree or something in it that does not belong there.

* `stopsAt_expression`, `stopsAt_statement`, …: the rules meet no such numerals but in front of integers.
* `Node.exists_of_parse_eq_overlong`: the texts that are given up hold such a numeral.
* `Node.parse_returning_overlong`: a function that returns such a numeral is given up.
* `ones`: numerals of any length.
-/

namespace PlcLang

namespace Grammar

section Rules

variable {p : Place} {bound depth : Nat} {ops : List Operator}

theorem stopsAt_literal : StopsAt BeginsOverlong (literal p) := by
  refine .byWord ?_ (.commit .decimal (fun _ => .pure) (.commit stopsAt_integer (fun _ => .pure)
    (.commit .character (fun _ => .pure) (.commit .string (fun _ => .pure) .refuse))))
  simp only [List.forall_mem_cons]
  exact ⟨.pure, .pure, .pure, List.forall_mem_nil _⟩

theorem stopsAt_operator : StopsAt BeginsOverlong (operator ops) := by
  induction ops with
  | nil => exact .refuse
  | cons op ops ih => exact .commit .mark (fun _ => .pure) ih

section Inner

variable {e : Parser Node} (he : StopsAt BeginsOverlong e)
include he

theorem stopsAt_chain : StopsAt BeginsOverlong (chain bound ops e) :=
  .bind .here fun _ => he.bind fun _ =>
    .bind (.many (.bind stopsAt_operator fun _ => he.bind fun _ => .pure) bound) fun _ => .pure

theorem stopsAt_operand : StopsAt BeginsOverlong (operand bound e) := by
  refine .bind .here fun _ => .commit stopsAt_literal (fun _ => .pure) ?_
  refine .commit .mark (fun _ => he.bind fun _ => .bind .mark fun _ => .pure) ?_
  refine .bind .name fun _ => .commit .mark (fun _ => ?_) (.commit .mark (fun _ => ?_) .pure)
  · exact (he.perhapsSeparated bound).bind fun _ => .bind .mark fun _ => .pure
  · exact he.bind fun _ => .bind .mark fun _ => .pure

end Inner

theorem stopsAt_expression : StopsAt BeginsOverlong (expression depth) := by
  induction depth with
  | zero => exact .refuse
  | succ depth ih => exact stopsAt_chain (stopsAt_chain (stopsAt_chain (stopsAt_chain (stopsAt_operand ih))))

theorem stopsAt_after {α : Type} {text : String} {q : Parser α} {otherwise : α}
    (hq : StopsAt BeginsOverlong q) : StopsAt BeginsOverlong (after text q otherwise) :=
  .commit .mark (fun _ => hq) .pure

theorem stopsAt_typeName : StopsAt BeginsOverlong typeName := .bind .mark fun _ => .name

section Blocks

variable {e : Parser Node} {block : Parser (List Node)} (he : StopsAt BeginsOverlong e)
  (hblock : StopsAt BeginsOverlong block)
include he

theorem stopsAt_declaration : StopsAt BeginsOverlong (declaration p e) :=
  .bind .name fun _ => (stopsAt_after (.map .name)).bind fun _ => (stopsAt_after he).bind fun _ =>
    .bind .mark fun _ => .pure

theorem stopsAt_returning : StopsAt BeginsOverlong (returning p e) :=
  he.bind fun _ => .bind .mark fun _ => .pure

theorem stopsAt_assignment : StopsAt BeginsOverlong (assignment p e) :=
  he.bind fun _ => .bind (.commit .mark (fun _ => he.bind fun _ => .pure) .pure) fun _ =>
    .bind .mark fun _ => .pure

include hblock

theorem stopsAt_switch : StopsAt BeginsOverlong (switch p e block bound) := by
  have hcase : StopsAt BeginsOverlong (case e block) :=
    .bind .here fun _ => .bind .word fun _ => he.bind fun _ => .bind .mark fun _ => hblock.bind fun _ => .pure
  exact he.bind fun _ => (hcase.many bound).bind fun _ => .bind .here fun _ => .bind .word fun _ =>
    hblock.bind fun _ => .bind .word fun _ => .pure

theorem stopsAt_conditional : StopsAt BeginsOverlong (conditional p e block) :=
  he.bind fun _ => .bind .word fun _ => hblock.bind fun _ =>
    .bind (.commit .word (fun _ => hblock) .pure) fun _ => .bind .word fun _ => .pure

theorem stopsAt_whileLoop : StopsAt BeginsOverlong (whileLoop p e block) :=
  he.bind fun _ => .bind .word fun _ => hblock.bind fun _ => .bind .word fun _ => .pure

end Blocks

theorem stopsAt_statement : StopsAt BeginsOverlong (statement depth) := by
  induction depth with
  | zero => exact .refuse
  | succ depth ih =>
    refine .bind .here fun _ => .byWord ?_ (stopsAt_assignment stopsAt_expression)
    have hblock : StopsAt BeginsOverlong (many (statement depth) depth) := ih.many depth
    simp only [wordedStatements, List.forall_mem_cons]
    exact ⟨stopsAt_declaration stopsAt_expression, stopsAt_switch stopsAt_expression hblock,
      stopsAt_conditional stopsAt_expression hblock, stopsAt_whileLoop stopsAt_expression hblock,
      stopsAt_returning stopsAt_expression, List.forall_mem_nil _⟩

theorem stopsAt_global {e : Parser Node} (he : StopsAt BeginsOverlong e) :
    StopsAt BeginsOverlong (global e bound) := by
  refine .bind .here fun _ => .bind (.byWord ?_ .refuse) fun _ => .bind .mark fun _ => .pure
  simp only [wordedGlobals, List.forall_mem_cons]
  refine ⟨?_, ?_, ?_, List.forall_mem_nil _⟩
  · exact .bind .name fun _ => stopsAt_typeName.bind fun _ => .bind .mark fun _ => .bind .mark fun _ =>
      (he.separated bound).bind fun _ => .bind .mark fun _ => .pure
  · exact .bind .name fun _ => stopsAt_typeName.bind fun _ => (stopsAt_after he).bind fun _ => .pure
  · exact .bind .name fun _ => stopsAt_typeName.bind fun _ => .bind .mark fun _ => he.bind fun _ => .pure

theorem stopsAt_function {block : Parser (List Node)} (hblock : StopsAt BeginsOverlong block) :
    StopsAt BeginsOverlong (function block bound) := by
  have hparameter : StopsAt BeginsOverlong parameter :=
    .bind .name fun _ => stopsAt_typeName.bind fun _ => .pure
  exact .bind .here fun _ => .bind .word fun _ => .bind .name fun _ => .bind .mark fun _ =>
    (hparameter.perhapsSeparated bound).bind fun _ => .bind .mark fun _ =>
    (stopsAt_after (.map .name)).bind fun _ => .bind .word fun _ => hblock.bind fun _ =>
    .bind .word fun _ => .pure

theorem stopsAt_program : StopsAt BeginsOverlong (program depth) :=
  .bind (.many (stopsAt_global stopsAt_expression) depth) fun _ =>
    .bind (.many (stopsAt_function (stopsAt_statement.many depth)) depth) fun _ =>
    .bind .finish fun _ => .pure

end Rules

/-! ## Returning a numeral -/

section Return

variable {gs inside rest : List Glyph} {i : Int} {depth : Nat} {returnType : Name}

theorem expression_eq_overlong (h : Offers gs (.integer i) rest) (hlong : ¬ Numeral.Fits i) :
    expression (depth + 1) gs = .error .overlong := by
  have hoperand : operand depth (expression depth) gs = .error .overlong := by
    unfold operand
    rw [bind_of_ok (here_eq _), commit_of_overlong (h.literal_eq_overlong hlong)]
  exact expression_eq_error hoperand

theorem statement_eq_overlong {ts : List Token}
    (h : OffersAll gs (.word "RETURN" :: .integer i :: ts) rest) (hlong : ¬ Numeral.Fits i) :
    statement (depth + 2) gs = .error .overlong := by
  obtain ⟨_, hreturn, _, hi, -⟩ := h
  rw [hreturn.statement_eq rfl, returning, bind_of_error (expression_eq_overlong hi hlong)]

theorem many_of_overlong {α : Type} {p : Parser α} {n : Nat} (h : p gs = .error .overlong) :
    many p (n + 1) gs = .error .overlong := commit_of_overlong h

/-- A program with a function `main` whose first statement is given up is given up. -/
theorem Heads.parse_eq_overlong {text : String} (h : Heads returnType (locate text) inside)
    (hs : statement ((locate text).length + 2) inside = .error .overlong) :
    Node.parse text = .error .overlong := by
  have hfunction : Grammar.function
      (many (statement ((locate text).length + 2)) ((locate text).length + 2))
      ((locate text).length + 2) (locate text) = .error .overlong := by
    rw [h.function, bind_of_error (many_of_overlong hs)]
  have hprogram : program ((locate text).length + 2) (locate text) = .error .overlong := by
    unfold program
    rw [bind_of_ok (many_of_mismatch (h.global _) _), bind_of_error (many_of_overlong hfunction)]
  unfold Node.parse Node.ofGlyphs
  rw [hprogram]
  rfl

end Return

/-! ## Long numerals -/

/-- The numeral of the given number of ones. -/
def ones (length : Nat) : String := String.ofList (List.replicate length '1')

/-- The integer that the numeral denotes. -/
def repunit (length : Nat) : Int := Decimal.ofDigits (List.replicate length '1')

variable {n : Nat}

theorem isNatural_ones (hn : 0 < n) : IsNatural (List.replicate n '1') := by
  obtain ⟨n, rfl⟩ := Nat.exists_eq_add_one.mpr hn
  refine .positive rfl (by decide) fun d hd => ?_
  obtain rfl := List.eq_of_mem_replicate hd
  rfl

theorem spelling_ones (hn : 0 < n) : (Token.integer (repunit n)).Spelling (ones n).toList := by
  rw [ones, String.toList_ofList]
  exact .natural (isNatural_ones hn)

theorem fits_repunit_iff (hn : 0 < n) : Numeral.Fits (repunit n) ↔ n ≤ Numeral.limit := by
  have h := fits_iff false (isNatural_ones hn)
  rwa [List.length_replicate] at h

end Grammar

open Grammar

namespace Node

/-- A text that is given up holds a numeral that is too long. -/
theorem exists_of_parse_eq_overlong {text : String} (h : parse text = .error .overlong) :
    ∃ ds, ds <:+: text.toList ∧ IsNatural ds ∧ Numeral.limit < ds.length := by
  unfold parse ofGlyphs at h
  cases hprogram : program ((locate text).length + 2) (locate text) with
  | ok => simp [hprogram, Except.map] at h
  | error e =>
    obtain rfl : e = .overlong := by simpa [hprogram, Except.map] using h
    obtain ⟨_, ⟨front, hgs⟩, _, rest, hds, hlong, w, rfl, rfl⟩ := stopsAt_program.overlong hprogram
    refine ⟨_, ⟨front.map Glyph.char, rest.map Glyph.char, ?_⟩, hds, hlong⟩
    rw [← map_char_locate text, ← hgs, List.map_append, List.map_append, List.append_assoc]

/-- The tokens of a function that returns an integer. -/
def returningTokens (i : Int) : List Token :=
  mainTokens (some "Integer") ++ [.word "RETURN", .integer i, .mark ";", .word "END"]

theorem laidOut_returningTokens {i : Int} {s : String} (hs : (Token.integer i).Spelling s.toList) :
    LaidOut (returningTokens i) ("FUN main(): Integer DO RETURN " ++ s ++ "; END").toList := by
  have htype : ∀ t, some "Integer" = some t → IsIdentifier t := by
    rintro _ ⟨⟩
    decide +kernel
  simpa [returningTokens, Grammar.typeText] using laidOut_return (some "Integer") htype hs rfl

/-- A function that returns an integer which is too long is given up. -/
theorem parse_returning_overlong {i : Int} {s : String} (hs : (Token.integer i).Spelling s.toList)
    (hlong : ¬ Numeral.Fits i) :
    parse ("FUN main(): Integer DO RETURN " ++ s ++ "; END") = .error .overlong := by
  obtain ⟨_, hoffers, -⟩ := (laidOut_returningTokens hs).exists_offersAll
  obtain ⟨_, hheads, hinside⟩ := exists_heads hoffers
  exact hheads.parse_eq_overlong (statement_eq_overlong hinside hlong)

end Node

end PlcLang
