import PlcLang.Grammar.Statement
import PlcLang.Proofs.Grammar.Next
import PlcLang.Proofs.Grammar.Spelling

/-!
# What follows

Expressions and blocks are read as long as possible, so where they end is decided by the token that
follows them.

* `Clear`: what follows does not extend an expression.
* `closers`: the tokens that follow expressions.
* `enders`: the tokens before which there is no expression and no statement.
-/

namespace PlcLang.Grammar

variable {gs rest : List Glyph} {t : Token}

/-! ## After an expression -/


theorem mem_all_of_level? {op : Operator} {l : Level} (h : op.level? = some l) :
    op ∈ Operator.all := by
  cases op with
  | other => cases h
  | _ => decide

/-- No two operators begin with the same character, and none with an opening mark. -/
theorem head?_symbol_ne {op : Operator} (h : op ∈ Operator.all) :
    op.symbol.toList.head? ∉ [some '(', some '['] ∧
      ∀ op' ∈ Operator.all, op' ≠ op → op'.symbol.toList.head? ≠ op.symbol.toList.head? := by
  revert op
  decide +kernel

/-- The marks and words that may follow an expression. -/
def closers : List Token :=
  [")", "]", ",", ";", ":", "="].map .mark ++ ["DO", "CASE", "DEFAULT"].map .word

/-- The next token extends no expression of the level. -/
structure Clear (l : Option Level) (gs : List Glyph) : Prop where
  /-- A name is no call. -/
  parenthesis : mark "(" gs = .error .mismatch
  /-- A name is no access to an item. -/
  bracket : mark "[" gs = .error .mismatch
  /-- No operator of the level or a tighter one follows. -/
  operator {op : Operator} {m : Level} : op.level? = some m → floor l ≤ m.rank →
    mark op.symbol gs = .error .mismatch

namespace Clear

theorem tighten {l : Level} (h : Clear (some l) gs) : Clear l.tighter? gs where
  parenthesis := h.parenthesis
  bracket := h.bracket
  operator hop hrank := by
    rw [floor_tighter] at hrank
    exact h.operator hop (Nat.le_of_succ_le hrank)

theorem of_operator {op : Operator} {l : Level} (h : Offers gs (.mark op.symbol) rest)
    (hop : op.level? = some l) : Clear l.tighter? gs := by
  obtain ⟨hopening, hothers⟩ := head?_symbol_ne (mem_all_of_level? hop)
  refine ⟨h.mark_eq_mismatch (by decide) fun he => hopening ?_,
    h.mark_eq_mismatch (by decide) fun he => hopening ?_, fun {op' m} hop' hrank => ?_⟩
  · exact he ▸ List.mem_cons_self
  · exact he ▸ List.mem_cons_of_mem _ List.mem_cons_self
  · have hne : op' ≠ op := by
      rintro rfl
      cases hop'.symm.trans hop
      rw [floor_tighter] at hrank
      omega
    exact h.mark_eq_mismatch (symbol_mem_marks hop') (hothers op' (mem_all_of_level? hop') hne)

theorem mark_eq_mismatch {s : String} (h : Offers gs t rest) (ht : t ∈ closers)
    (hs : s ∈ ["(", "["] ++ Operator.all.map Operator.symbol) : mark s gs = .error .mismatch := by
  have hmark : s ∈ marks := by
    revert s
    decide +kernel
  by_cases hequal : t = .mark "=" ∧ s = "=="
  · obtain ⟨rfl, rfl⟩ := hequal
    exact h.mark_equal_eq_mismatch
  rcases List.mem_append.mp ht with ht | ht
  · obtain ⟨m, hm, rfl⟩ := List.mem_map.mp ht
    have hheads : ∀ m ∈ [")", "]", ",", ";", ":", "="],
        ∀ s ∈ ["(", "["] ++ Operator.all.map Operator.symbol, ¬ (Token.mark m = .mark "=" ∧ s = "==") →
          s.toList.head? ≠ m.toList.head? := by decide +kernel
    exact h.mark_eq_mismatch hmark (hheads m hm s hs hequal)
  · obtain ⟨w, hw, rfl⟩ := List.mem_map.mp ht
    exact h.mark_eq_mismatch_of_letter rfl hmark

theorem of_closer (h : Offers gs t rest) (ht : t ∈ closers) : Clear (some .logical) gs where
  parenthesis := mark_eq_mismatch h ht (by decide)
  bracket := mark_eq_mismatch h ht (by decide)
  operator hop _ := mark_eq_mismatch h ht
    (List.mem_append_right _ (List.mem_map_of_mem (mem_all_of_level? hop)))

end Clear

/-! ## Instead of an expression or a statement -/

/-- The tokens that follow where there are no arguments, or no more statements. -/
def enders : List Token :=
  [")", ","].map .mark ++ ["END", "ELSE", "CASE", "DEFAULT"].map .word

section Enders

variable {bound depth : Nat} {inner : Parser Node}

theorem isPlain_of_mem_enders (ht : t ∈ enders) : t.IsPlain ∧ ∀ s, t ≠ .name s := by
  rcases List.mem_append.mp ht with ht | ht <;> obtain ⟨s, hs, rfl⟩ := List.mem_map.mp ht <;>
    exact ⟨trivial, nofun⟩

theorem parenthesis_eq_mismatch_of_ender (h : Offers gs t rest) (ht : t ∈ enders) :
    mark "(" gs = .error .mismatch := by
  rcases List.mem_append.mp ht with ht | ht
  · obtain ⟨m, hm, rfl⟩ := List.mem_map.mp ht
    refine h.mark_eq_mismatch (by decide) ?_
    clear h ht
    revert m
    decide +kernel
  · obtain ⟨w, hw, rfl⟩ := List.mem_map.mp ht
    exact h.mark_eq_mismatch_of_letter rfl (by decide)

theorem operand_eq_mismatch (h : Offers gs t rest) (ht : t ∈ enders) :
    operand bound inner gs = .error .mismatch := by
  obtain ⟨hplain, hname⟩ := isPlain_of_mem_enders ht
  have hvalue : ∀ t ∈ enders, t.value? = none ∧ t ≠ .mark "-" := by decide +kernel
  unfold operand
  rw [bind_of_ok (here_eq gs), commit_of_mismatch (h.literal_eq_mismatch hplain (hvalue t ht).1 (hvalue t ht).2),
    commit_of_mismatch (parenthesis_eq_mismatch_of_ender h ht), bind_of_error (h.name_eq_mismatch hname)]

theorem chain_eq_error {ops : List Operator} {operand : Parser Node} {e : Refusal}
    (h : operand gs = .error e) : chain bound ops operand gs = .error e := by
  unfold chain
  rw [bind_of_ok (here_eq gs), bind_of_error h]

/-- An operand that refuses makes the expression refuse. -/
theorem expression_eq_error {e : Refusal} (h : operand depth (expression depth) gs = .error e) :
    expression (depth + 1) gs = .error e :=
  chain_eq_error (chain_eq_error (chain_eq_error (chain_eq_error h)))

theorem expression_eq_mismatch (h : Offers gs t rest) (ht : t ∈ enders) :
    expression depth gs = .error .mismatch := by
  cases depth with
  | zero => rfl
  | succ => exact expression_eq_error (operand_eq_mismatch h ht)

/-- The words with which statements begin. -/
def statementWords : List String := ["LET", "SWITCH", "IF", "WHILE", "RETURN"]

theorem statementWords_subset : statementWords ⊆ keywords := by decide

/-- A word at its beginning decides which statement is read. -/
theorem Offers.statement_eq {w : String} {p : Parser Node} (h : Offers gs (.word w) rest)
    (hp : (wordedStatements (nextPlace gs) (expression depth) (many (statement depth) depth)
      depth).lookup w = some p) : statement (depth + 1) gs = p rest :=
  (bind_of_ok (here_eq gs)).trans (h.byWord_eq statementWords_subset hp)

/-- Without a word at its beginning, a statement is an assignment or an expression. -/
theorem statement_eq_assignment (h : ∀ w ∈ statementWords, word w gs = .error .mismatch) :
    statement (depth + 1) gs = assignment (nextPlace gs) (expression depth) gs :=
  (bind_of_ok (here_eq gs)).trans (byWord_of_mismatch h)

theorem statement_eq_mismatch (h : Offers gs t rest) (ht : t ∈ enders) :
    statement depth gs = .error .mismatch := by
  cases depth with
  | zero => rfl
  | succ depth =>
    have hwords : ∀ t ∈ enders, ∀ w ∈ statementWords, t ≠ .word w := by decide +kernel
    rw [statement_eq_assignment fun w hw =>
        h.word_eq_mismatch (isPlain_of_mem_enders ht).1 (statementWords_subset hw) (hwords t ht w hw),
      assignment, bind_of_error (expression_eq_mismatch h ht)]

end Enders

end PlcLang.Grammar
