import PlcLang.Proofs.Shape

/-!
# Lexemes

What a text consists of: tokens with blanks between them. A token is known by what it denotes; how
it may be spelled is a relation, because characters and strings may be spelled in several ways.

* `Token.Spelling`: the spellings of a token.
* `Reads`: glyphs that begin with given tokens at given places.
* `Token.EndsBefore`: what may not follow a token directly.
* `Token.Fits`: the tokens that are not too long.
-/

namespace PlcLang.Grammar

/-! ## Letters and digits -/

/-- The code points of letters and `@`. -/
theorem beginsName_iff {c : Char} : beginsName c = true ↔
    ((65 ≤ c.toNat ∧ c.toNat ≤ 90) ∨ (97 ≤ c.toNat ∧ c.toNat ≤ 122)) ∨ c = '@' := by
  unfold beginsName
  delta Char.isAlpha Char.isUpper Char.isLower
  simp only [Bool.or_eq_true, Bool.and_eq_true, decide_eq_true_eq, beq_iff_eq,
    UInt32.le_iff_toNat_le, ge_iff_le]
  rfl

/-- The code points of digits. -/
theorem isDigit_iff {c : Char} : isDigit c = true ↔ 48 ≤ c.toNat ∧ c.toNat ≤ 57 := by
  unfold isDigit
  delta Char.isDigit
  simp only [Bool.and_eq_true, decide_eq_true_eq, UInt32.le_iff_toNat_le, ge_iff_le]
  rfl

/-! ## Spellings -/

/-- The tokens. -/
inductive Token where
  /-- A word of the language. -/
  | word (text : String)
  /-- A mark of punctuation or an operator. -/
  | mark (text : String)
  | name (text : String)
  | integer (i : Int)
  | decimal (d : Decimal)
  | character (c : Char)
  | string (text : String)
  deriving DecidableEq, Inhabited

/-- The marks of punctuation and the operators. -/
def marks : List String :=
  ["(", ")", "[", "]", ",", ";", ":", "=", "&&", "||", "==", "!=", "<", ">", "+", "-", "*", "/", "^"]

/-- The digits of a natural number, without leading zeros. -/
inductive IsNatural : List Char → Prop
  | zero : IsNatural ['0']
  | positive {c cs} : isDigit c = true → c ≠ '0' → (∀ d ∈ cs, isDigit d = true) →
      IsNatural (c :: cs)

/-- Characters and how they are written in quotes: as they are or escaped. -/
inductive Written (quote : Char) : (cs body : List Char) → Prop
  | nil : Written quote [] []
  | plain {c cs w} : isPlainIn quote c = true → Written quote cs w → Written quote (c :: cs) (c :: w)
  | escape {c d cs w} : escaped d = some c → Written quote cs w →
      Written quote (c :: cs) ('\\' :: d :: w)

/-- The spellings of a token. -/
inductive Token.Spelling : Token → List Char → Prop
  | word {s} : s ∈ keywords → Spelling (.word s) s.toList
  | mark {s} : s ∈ marks → Spelling (.mark s) s.toList
  | name {s} : IsIdentifier s → Spelling (.name s) s.toList
  | natural {ds} : IsNatural ds → Spelling (.integer (Decimal.ofDigits ds)) ds
  | negative {ds} : IsNatural ds → Decimal.ofDigits ds ≠ 0 →
      Spelling (.integer (-(Decimal.ofDigits ds : Int))) ('-' :: ds)
  | decimal {negative whole fraction} : IsNatural whole → fraction ≠ [] →
      (∀ d ∈ fraction, isDigit d = true) → Spelling (.decimal (.ofParts negative whole fraction))
        (Decimal.signText negative ++ whole ++ '.' :: fraction)
  | character {c w} : Written '\x27' [c] w → Spelling (.character c) ('\x27' :: w ++ ['\x27'])
  | string {cs w} : Written '\x22' cs w →
      Spelling (.string (String.ofList cs)) ('\x22' :: w ++ ['\x22'])

/-- A token has at least one character. -/
theorem Token.Spelling.ne_nil {t : Token} {cs : List Char} (h : t.Spelling cs) : cs ≠ [] := by
  have hkeywords : ∀ s ∈ keywords, s.toList ≠ [] := by decide
  have hmarks : ∀ s ∈ marks, s.toList ≠ [] := by decide
  cases h with
  | word hs => exact hkeywords _ hs
  | mark hs => exact hmarks _ hs
  | name hs =>
    obtain ⟨⟨c, cs, hcs, -⟩, -⟩ := hs
    rw [hcs]
    exact List.cons_ne_nil _ _
  | natural h =>
    cases h <;> exact List.cons_ne_nil _ _
  | decimal => exact List.append_ne_nil_of_right_ne_nil _ (List.cons_ne_nil _ _)
  | negative | character | string => exact List.cons_ne_nil _ _

/-- The value of a token that is a literal. -/
def Token.value? : Token → Option Value
  | word "NIL" => some .nil
  | word "TRUE" => some (.boolean true)
  | word "FALSE" => some (.boolean false)
  | integer i => some (.integer i)
  | decimal d => some (.decimal d)
  | character c => some (.character (String.singleton c))
  | string s => some (.string s)
  | _ => none

/-! ## Glyphs -/

/-- Glyphs that begin with the given characters. -/
def Splits (gs : List Glyph) (cs : List Char) (rest : List Glyph) : Prop :=
  ∃ w, gs = w ++ rest ∧ w.map Glyph.char = cs

namespace Splits

variable {gs gs' rest : List Glyph} {c : Char} {cs ds : List Char}

@[simp] theorem nil_iff : Splits gs [] rest ↔ gs = rest := by
  constructor
  · rintro ⟨w, rfl, hw⟩
    rw [List.map_eq_nil_iff.mp hw, List.nil_append]
  · rintro rfl
    exact ⟨[], rfl, rfl⟩

theorem cons_iff : Splits gs (c :: cs) rest ↔
    ∃ g gs', gs = g :: gs' ∧ g.char = c ∧ Splits gs' cs rest := by
  constructor
  · rintro ⟨w, rfl, hw⟩
    obtain ⟨g, w, rfl, rfl, rfl⟩ := List.map_eq_cons_iff.mp hw
    exact ⟨g, w ++ rest, rfl, rfl, w, rfl, rfl⟩
  · rintro ⟨g, _, rfl, rfl, w, rfl, rfl⟩
    exact ⟨g :: w, rfl, rfl⟩

theorem append_iff : Splits gs (cs ++ ds) rest ↔ ∃ gs', Splits gs cs gs' ∧ Splits gs' ds rest := by
  constructor
  · rintro ⟨w, rfl, hw⟩
    obtain ⟨u, v, rfl, rfl, rfl⟩ := List.map_eq_append_iff.mp hw
    exact ⟨v ++ rest, ⟨u, List.append_assoc .., rfl⟩, v, rfl, rfl⟩
  · rintro ⟨_, ⟨u, rfl, rfl⟩, v, rfl, rfl⟩
    exact ⟨u ++ v, (List.append_assoc ..).symm, List.map_append⟩

theorem exists_of_cons (h : Splits gs (c :: cs) rest) :
    ∃ gs', Splits gs [c] gs' ∧ Splits gs' cs rest :=
  append_iff.mp h

theorem append (h : Splits gs cs gs') (k : Splits gs' ds rest) : Splits gs (cs ++ ds) rest :=
  append_iff.mpr ⟨gs', h, k⟩

theorem suffix (h : Splits gs cs rest) : rest <:+ gs := by
  obtain ⟨w, rfl, -⟩ := h
  exact List.suffix_append _ _

/-- The same characters leave the same rest. -/
theorem unique {rest' : List Glyph} (h : Splits gs cs rest) (k : Splits gs cs rest') :
    rest = rest' := by
  obtain ⟨w, rfl, rfl⟩ := h
  obtain ⟨w', he, hw⟩ := k
  have hlength : w.length = w'.length := by simpa using (congrArg List.length hw).symm
  exact (List.append_inj he hlength).2

end Splits

/-- The place of the first glyph that is not blank. -/
def nextPlace (gs : List Glyph) : Place := ((skipBlanks gs).head?.map Glyph.place).getD .unknown

/-! ## Texts -/

/-- A token and the place of its first character. -/
structure Lexeme where
  token : Token
  place : Place

/-- Glyphs that begin with the given lexemes, after blanks, and go on with `rest`. What follows a
token directly may be subject to a condition. -/
inductive Reads (E : Token → List Glyph → Prop) :
    (gs : List Glyph) → List Lexeme → (rest : List Glyph) → Prop
  | nil {gs} : Reads E gs [] gs
  | cons {gs t cs gs' ls rest} : t.Spelling cs → Splits (skipBlanks gs) cs gs' → E t gs' →
      Reads E gs' ls rest → Reads E gs (⟨t, nextPlace gs⟩ :: ls) rest

/-- Nothing is asked of what follows a token. -/
abbrev Anything : Token → List Glyph → Prop := fun _ _ => True

/-- The character, directly behind the token, would be taken for a part of it. -/
def Token.continuedBy : Token → Char → Bool
  | word _, c | name _, c => continuesName c
  | integer _, c | decimal _, c => isDigit c || c == '.'
  | mark "=", c => c == '='
  | _, _ => false

/-- The token ends where the glyphs begin. -/
def Token.EndsBefore (t : Token) (gs : List Glyph) : Prop :=
  ∀ g ∈ gs.head?, t.continuedBy g.char = false

/-- An integer has a numeral that is not too long. -/
def Token.Fits : Token → Prop
  | integer i => Numeral.Fits i
  | _ => True

instance (t : Token) : Decidable t.Fits := by
  unfold Token.Fits
  split <;> infer_instance

/-- The token ends where the glyphs begin, and it is not too long to be read. -/
def Token.ReadableBefore (t : Token) (gs : List Glyph) : Prop := t.EndsBefore gs ∧ t.Fits

namespace Reads

variable {E : Token → List Glyph → Prop} {gs gs' rest : List Glyph} {ls ls' : List Lexeme}
  {x : Lexeme}

theorem append (h : Reads E gs ls gs') (k : Reads E gs' ls' rest) : Reads E gs (ls ++ ls') rest := by
  induction h with
  | nil => exact k
  | cons hs hw he _ ih => exact .cons hs hw he (ih k)

theorem exists_of_append (h : Reads E gs (ls ++ ls') rest) :
    ∃ gs', Reads E gs ls gs' ∧ Reads E gs' ls' rest := by
  induction ls generalizing gs with
  | nil => exact ⟨gs, .nil, h⟩
  | cons x ls ih =>
    cases h with
    | cons hs hw he h =>
      obtain ⟨gs', h₁, h₂⟩ := ih h
      exact ⟨gs', .cons hs hw he h₁, h₂⟩

/-- Tokens that end where they are meant to end can be read if they are not too long. -/
theorem readable (h : Reads Token.EndsBefore gs ls rest) (hls : ∀ x ∈ ls, x.token.Fits) :
    Reads Token.ReadableBefore gs ls rest := by
  induction h with
  | nil => exact .nil
  | cons hs hw he _ ih =>
    obtain ⟨hfits, hls⟩ := List.forall_mem_cons.mp hls
    exact .cons hs hw ⟨he, hfits⟩ (ih hls)

theorem place_eq (h : Reads E gs (x :: ls) rest) : nextPlace gs = x.place := by
  cases h
  rfl

/-- Lexemes stand where glyphs stand that are not blank, in the order of the glyphs. -/
theorem exists_glyphs (h : Reads E gs ls rest) : ∃ ws : List Glyph, ws.Sublist gs ∧
    ws.map Glyph.place = ls.map Lexeme.place ∧ ∀ g ∈ ws, isBlank g.char = false := by
  induction h with
  | nil => exact ⟨[], List.nil_sublist _, rfl, List.forall_mem_nil _⟩
  | @cons gs t cs gs' ls rest ht hw _ _ ih =>
    obtain ⟨ws, hsub, hplaces, hblank⟩ := ih
    obtain ⟨c, cs, rfl⟩ := List.exists_cons_of_ne_nil ht.ne_nil
    obtain ⟨g, gs₁, hskip, -, w, rfl, -⟩ := Splits.cons_iff.mp hw
    have hgs : (skipBlanks gs).Sublist gs := List.dropWhile_sublist _
    have hplace : nextPlace gs = g.place := by
      rw [nextPlace, hskip]
      rfl
    have hg : isBlank g.char = false := by
      have hdrop := List.head?_dropWhile_not (fun g : Glyph => isBlank g.char) gs
      rw [← skipBlanks, hskip] at hdrop
      simpa using hdrop
    rw [hskip] at hgs
    refine ⟨g :: ws, (List.Sublist.cons_cons g (hsub.trans (List.sublist_append_right _ _))).trans hgs,
      ?_, List.forall_mem_cons.mpr ⟨hg, hblank⟩⟩
    rw [List.map_cons, List.map_cons, hplaces, hplace]

/-- Lexemes stand at places of the glyphs that they are read from, in order. -/
theorem places_sublist (h : Reads E gs ls rest) :
    (ls.map Lexeme.place).Sublist (gs.map Glyph.place) := by
  obtain ⟨ws, hsub, hplaces, -⟩ := h.exists_glyphs
  exact hplaces ▸ hsub.map Glyph.place

theorem length_le (h : Reads E gs ls rest) : ls.length ≤ gs.length := by
  simpa using h.places_sublist.length_le

end Reads

end PlcLang.Grammar
