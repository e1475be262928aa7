import Mathlib.Data.List.Induction
import PlcLang.Proofs.Grammar.Written

/-!
# Spellings that are unique

Words, marks, names and numerals are spelled in one way. Only what stands in quotes can be spelled in
several ways.

* `padded_digits`: digits are those of the number that they denote, behind zeros.
* `Token.WrittenAs`: the canonical spelling, or any characters in quotes that denote the same.
* `Token.Spelling.writtenAs`: there are no other spellings.
* `Spaced`: texts that are spellings of given tokens, blanks in front of each and at the end.
-/

namespace PlcLang.Grammar

/-! ## Numerals -/

theorem digitChar_of_isDigit {d : Char} (h : isDigit d = true) :
    d.toNat - '0'.toNat < 10 ∧ (d.toNat - '0'.toNat).digitChar = d := by
  have hd := isDigit_iff.mp h
  have hzero : '0'.toNat = 48 := rfl
  have hdigit : ∀ v < 10, v.digitChar.toNat = v + 48 := by decide
  have hlt : d.toNat - '0'.toNat < 10 := by omega
  refine ⟨hlt, Char.ext (UInt32.toNat_inj.mp ?_)⟩
  change (d.toNat - '0'.toNat).digitChar.toNat = d.toNat
  rw [hdigit _ hlt]
  omega

theorem ofDigits_concat (ds : List Char) (d : Char) :
    Decimal.ofDigits (ds ++ [d]) = 10 * Decimal.ofDigits ds + (d.toNat - '0'.toNat) := by
  rw [Decimal.ofDigits, List.foldl_append]
  rfl

theorem digits_concat {ds : List Char} {d : Char} (hd : isDigit d = true) :
    Decimal.digits (Decimal.ofDigits (ds ++ [d])) =
      if Decimal.ofDigits ds = 0 then [d] else Decimal.digits (Decimal.ofDigits ds) ++ [d] := by
  obtain ⟨hlt, hchar⟩ := digitChar_of_isDigit hd
  rw [ofDigits_concat]
  by_cases hzero : Decimal.ofDigits ds = 0
  · rw [if_pos hzero, hzero, Nat.mul_zero, Nat.zero_add, Decimal.digits,
      Nat.toDigits_of_lt_base hlt, hchar]
  · rw [if_neg hzero, Decimal.digits, Nat.toDigits_of_base_le (by decide) (by omega)]
    have hdiv : (10 * Decimal.ofDigits ds + (d.toNat - '0'.toNat)) / 10 = Decimal.ofDigits ds := by
      omega
    have hmod : (10 * Decimal.ofDigits ds + (d.toNat - '0'.toNat)) % 10 = d.toNat - '0'.toNat := by
      omega
    rw [hdiv, hmod, hchar]
    rfl

/-- Digits are the digits of their number behind as many zeros as are missing. -/
theorem padded_digits {ds : List Char} (hne : ds ≠ []) (hds : ∀ d ∈ ds, isDigit d = true) :
    List.replicate (ds.length - (Decimal.digits (Decimal.ofDigits ds)).length) '0' ++
      Decimal.digits (Decimal.ofDigits ds) = ds := by
  induction ds using List.reverseRecOn with
  | nil => exact absurd rfl hne
  | append_singleton ds d ih =>
    obtain ⟨hds, hd⟩ := List.forall_mem_append.mp hds
    rw [digits_concat (hd d List.mem_cons_self), List.length_append, List.length_singleton]
    by_cases hzero : Decimal.ofDigits ds = 0
    · -- the other digits are zeros
      rw [if_pos hzero, List.length_singleton, Nat.add_sub_cancel]
      cases ds with
      | nil => rfl
      | cons c cs =>
        have hcs := ih (List.cons_ne_nil c cs) hds
        have hsingle : Decimal.digits 0 = ['0'] := rfl
        rw [hzero, hsingle, List.length_singleton, ← List.replicate_succ'] at hcs
        exact congrArg (· ++ [d]) hcs
    · rw [if_neg hzero, List.length_append, List.length_singleton, Nat.add_sub_add_right,
        ← List.append_assoc]
      refine congrArg (· ++ [d]) (ih ?_ hds)
      rintro rfl
      exact hzero rfl

theorem IsNatural.isDigit {ds : List Char} (h : IsNatural ds) : ∀ d ∈ ds, isDigit d = true := by
  cases h with
  | zero => exact List.forall_mem_singleton.mpr rfl
  | positive hc _ hcs => exact List.forall_mem_cons.mpr ⟨hc, hcs⟩

theorem IsNatural.ne_nil {ds : List Char} (h : IsNatural ds) : ds ≠ [] := by
  cases h <;> exact List.cons_ne_nil _ _

/-- A numeral without leading zeros consists of the digits of its number. -/
theorem IsNatural.digits_eq {ds : List Char} (h : IsNatural ds) :
    Decimal.digits (Decimal.ofDigits ds) = ds := by
  have hpadded := padded_digits h.ne_nil h.isDigit
  cases h with
  | zero => rfl
  | @positive c cs _ hne _ =>
    generalize (c :: cs).length - (Decimal.digits (Decimal.ofDigits (c :: cs))).length = n at hpadded
    cases n with
    | zero => exact hpadded
    | succ n =>
      rw [List.replicate_succ, List.cons_append] at hpadded
      exact absurd (List.cons.inj hpadded).1.symm hne

theorem pointed_ofDigits {whole fraction : List Char} (hwhole : IsNatural whole)
    (hne : fraction ≠ []) (hfraction : ∀ d ∈ fraction, isDigit d = true) :
    Decimal.pointed (Decimal.ofDigits (whole ++ fraction)) fraction.length =
      whole ++ '.' :: fraction := by
  have hpositive : fraction.length ≠ 0 := fun h => hne (List.length_eq_zero_iff.mp h)
  have hpadded : List.replicate (fraction.length + 1 -
        (Decimal.digits (Decimal.ofDigits (whole ++ fraction))).length) '0' ++
      Decimal.digits (Decimal.ofDigits (whole ++ fraction)) = whole ++ fraction := by
    cases hwhole with
    | zero =>
      have hds := padded_digits (List.cons_ne_nil '0' fraction)
        (List.forall_mem_cons.mpr ⟨rfl, hfraction⟩)
      exact hds
    | @positive c cs hc hne hcs =>
      have hnatural : IsNatural (c :: (cs ++ fraction)) :=
        .positive hc hne (List.forall_mem_append.mpr ⟨hcs, hfraction⟩)
      rw [List.cons_append, hnatural.digits_eq, Nat.sub_eq_zero_of_le]
      · rfl
      · simp only [List.length_cons, List.length_append]
        omega
  rw [Decimal.pointed, if_neg hpositive]
  simp only [hpadded, List.length_append, Nat.add_sub_cancel, List.take_left, List.drop_left]

/-! ## Tokens -/

/-- The canonical spelling; in quotes, any characters that denote the same. -/
def Token.WrittenAs : Token → List Char → Prop
  | character c, cs => ∃ w, Written '\x27' [c] w ∧ cs = '\x27' :: w ++ ['\x27']
  | string s, cs => ∃ w, Written '\x22' s.toList w ∧ cs = '\x22' :: w ++ ['\x22']
  | t, cs => cs = t.written

/-- **Only what stands in quotes is spelled in several ways.** -/
theorem Token.Spelling.writtenAs {t : Token} {cs : List Char} (h : t.Spelling cs) :
    t.WrittenAs cs := by
  cases h with
  | word | mark | name => exact rfl
  | natural hds =>
    change _ = Decimal.signText _ ++ Decimal.digits _
    rw [Int.natAbs_natCast, hds.digits_eq]
    exact (congrArg (Decimal.signText · ++ _) (decide_eq_false (by omega))).symm
  | negative hds hne =>
    change _ = Decimal.signText _ ++ Decimal.digits _
    rw [Int.natAbs_neg, Int.natAbs_natCast, hds.digits_eq]
    exact (congrArg (Decimal.signText · ++ _) (decide_eq_true (by omega))).symm
  | @decimal negative whole fraction hwhole hne hfraction =>
    change _ = (Decimal.plain (.finite _ _ _)).toList
    have hle : -(fraction.length : Int) ≤ 0 := by omega
    rw [Decimal.plain, String.toList_ofList, if_pos hle, Int.natAbs_neg, Int.natAbs_natCast,
      pointed_ofDigits hwhole hne hfraction, List.append_assoc]
  | character hw => exact ⟨_, hw, rfl⟩
  | string hw => exact ⟨_, String.toList_ofList.symm ▸ hw, rfl⟩

/-! ## Texts -/

/-- Spellings of the tokens, one after another, blanks in front of each and at the end. -/
inductive Spaced : List Token → List Char → Prop
  | blanks {bs} : (∀ b ∈ bs, isBlank b = true) → Spaced [] bs
  | token {bs t cs ts rest} : (∀ b ∈ bs, isBlank b = true) → t.WrittenAs cs → Spaced ts rest →
      Spaced (t :: ts) (bs ++ cs ++ rest)

theorem chars_eq (gs : List Glyph) : ∃ bs, (∀ b ∈ bs, isBlank b = true) ∧
    gs.map Glyph.char = bs ++ (skipBlanks gs).map Glyph.char := by
  refine ⟨(gs.takeWhile fun g => isBlank g.char).map Glyph.char, fun b hb => ?_, ?_⟩
  · obtain ⟨g, hg, rfl⟩ := List.mem_map.mp hb
    exact List.all_eq_true.mp List.all_takeWhile g hg
  · rw [← List.map_append]
    exact congrArg (List.map Glyph.char) List.takeWhile_append_dropWhile.symm

/-- A text that consists of lexemes is spaced. -/
theorem Reads.spaced {E : Token → List Glyph → Prop} {gs rest : List Glyph} {ls : List Lexeme}
    (h : Reads E gs ls rest) (hrest : skipBlanks rest = []) :
    Spaced (ls.map Lexeme.token) (gs.map Glyph.char) := by
  induction h with
  | @nil gs =>
    obtain ⟨bs, hbs, hchars⟩ := chars_eq gs
    rw [hchars, hrest]
    exact .blanks (by simpa using hbs)
  | @cons gs t cs gs' ls rest ht hsplits _ _ ih =>
    obtain ⟨bs, hbs, hchars⟩ := chars_eq gs
    obtain ⟨w, hskip, rfl⟩ := hsplits
    rw [hchars, hskip, List.map_append, ← List.append_assoc]
    exact .token hbs ht.writtenAs (ih hrest)

end PlcLang.Grammar
