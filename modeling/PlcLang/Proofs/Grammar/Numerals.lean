import PlcLang.Proofs.Grammar.Overlong
import PlcLang.Value.Text

/-!
# Numerals and texts of numbers

The numerals of the language are the texts of its numbers: a numeral is written as it was read, and the
text of a number is read as that number, with the same sign, coefficient and exponent if it is a decimal.
Integers with too many digits have no text and are not read.

* `MatchesInteger`, `MatchesDecimal`: the patterns of numerals; `digitCount`: how long one is.
* `Takes`: a rule reads a whole text.
* `takes_integer_iff`, `takes_decimal_iff`: what the rules of numerals read.
* `IsReadAs`: a text is an expression that is a literal.
* `Node.numerals_round_trip`: reading and writing.
-/

namespace PlcLang

namespace Grammar

variable {gs rest : List Glyph} {s : String} {t : Token} {i : Int} {d : Decimal} {v : Value}

/-! ## Patterns -/

/-- The pattern of integers: `-?[1-9][0-9]*|0`. -/
def MatchesInteger (cs : List Char) : Prop :=
  cs = ['0'] ∨ ∃ negative c ds, isDigit c = true ∧ c ≠ '0' ∧ (∀ d ∈ ds, isDigit d = true) ∧
    cs = Decimal.signText negative ++ c :: ds

/-- The number of digits. -/
def digitCount (cs : List Char) : Nat := cs.countP isDigit

/-- The pattern of decimals: `-?(?:0|[1-9][0-9]*)\.[0-9]+`. -/
def MatchesDecimal (cs : List Char) : Prop :=
  ∃ negative whole fraction, IsNatural whole ∧ fraction ≠ [] ∧ (∀ d ∈ fraction, isDigit d = true) ∧
    cs = Decimal.signText negative ++ whole ++ '.' :: fraction

/-- The rule reads the text from its first character to its last one. -/
def Takes {α : Type} (rule : Parser α) (s : String) (a : α) : Prop :=
  rule (locate s) = .ok (a, []) ∧ ∀ c ∈ s.toList.head?, isBlank c = false

theorem splits_nil_iff {cs : List Char} : Splits gs cs [] ↔ gs.map Glyph.char = cs := by
  simp [Splits]

theorem skipBlanks_locate (h : ∀ c ∈ s.toList.head?, isBlank c = false) : skipBlanks (locate s) = locate s := by
  unfold skipBlanks locate
  cases hs : s.toList with
  | nil => rfl
  | cons c cs =>
    rw [hs] at h
    exact List.dropWhile_cons_of_neg (by simp [h c rfl])

/-- A rule that reads what is spelled in certain ways reads whole texts that are spelled so. -/
theorem takes_iff {α : Type} {rule : Parser α} {a : α} {P : List Char → Prop}
    (hrule : rule (locate s) = .ok (a, []) ↔ ∃ cs, P cs ∧ Splits (skipBlanks (locate s)) cs [])
    (hP : ∀ cs, P cs → ∃ c cs', cs = c :: cs' ∧ isBlank c = false) :
    Takes rule s a ↔ P s.toList := by
  unfold Takes
  rw [hrule]
  constructor
  · rintro ⟨⟨cs, hcs, hsplits⟩, hblank⟩
    rw [skipBlanks_locate hblank, splits_nil_iff, map_char_locate] at hsplits
    exact hsplits ▸ hcs
  · intro hs
    obtain ⟨c, cs, hcs, hc⟩ := hP _ hs
    have hblank : ∀ c ∈ s.toList.head?, isBlank c = false := by
      rw [hcs]
      rintro _ ⟨⟩
      exact hc
    refine ⟨⟨s.toList, hs, ?_⟩, hblank⟩
    rw [skipBlanks_locate hblank, splits_nil_iff, map_char_locate]

theorem stops_nil (test : Char → Bool) : Stops test [] := nofun

/-- A text that spells a token offers it. -/
theorem Token.Spelling.offers (hs : t.Spelling s.toList) : Offers (locate s) t [] := by
  refine ⟨_, hs, ?_, nofun⟩
  obtain ⟨c, cs, hcs, hc⟩ := hs.exists_head
  rw [skipBlanks_locate, splits_nil_iff, map_char_locate]
  rw [hcs]
  rintro _ ⟨⟩
  exact hc

/-- The rule of integers reads the spellings of the integer, if it is not too long. -/
theorem takes_integer_iff :
    Takes integer s i ↔ (Token.integer i).Spelling s.toList ∧ Numeral.Fits i := by
  refine takes_iff (P := fun cs => (Token.integer i).Spelling cs ∧ Numeral.Fits i) ?_
    fun cs hcs => hcs.1.exists_head
  rw [integer_eq_ok]
  constructor
  · rintro ⟨negative, ds, hds, hzero, hlimit, rfl, hsplits, -⟩
    refine ⟨_, ⟨?_, (fits_iff negative hds).mpr hlimit⟩, hsplits⟩
    cases negative with
    | false => exact .natural hds
    | true => exact .negative hds (by simpa using hzero)
  · rintro ⟨cs, ⟨hcs, hfits⟩, hsplits⟩
    cases hcs with
    | natural hds =>
      exact ⟨false, _, hds, rfl, (fits_iff false hds).mp hfits, rfl, hsplits, .inr (stops_nil _)⟩
    | negative hds hne =>
      exact ⟨true, _, hds, by simpa using hne, (fits_iff true hds).mp hfits, rfl, hsplits,
        .inr (stops_nil _)⟩

/-- The rule of decimals reads the spellings of the decimal. -/
theorem takes_decimal_iff : Takes decimal s d ↔ (Token.decimal d).Spelling s.toList := by
  refine takes_iff (P := (Token.decimal d).Spelling) ?_ fun cs hcs => hcs.exists_head
  rw [decimal_eq_ok]
  constructor
  · rintro ⟨negative, whole, fraction, hwhole, hne, hall, rfl, hsplits, -⟩
    exact ⟨_, .decimal hwhole hne hall, hsplits⟩
  · rintro ⟨cs, hcs, hsplits⟩
    cases hcs with
    | decimal hwhole hne hall => exact ⟨_, _, _, hwhole, hne, hall, rfl, hsplits, stops_nil _⟩

theorem ofDigits_ne_zero {c : Char} {ds : List Char} (hc : isDigit c = true) (hne : c ≠ '0')
    (hds : ∀ d ∈ ds, isDigit d = true) : Decimal.ofDigits (c :: ds) ≠ 0 := by
  intro hzero
  have hdigits := (IsNatural.positive hc hne hds).digits_eq
  rw [hzero] at hdigits
  have hhead : '0' = c := (List.cons.inj hdigits).1
  exact hne hhead.symm

theorem digitCount_signed (negative : Bool) {ds : List Char} (hds : IsNatural ds) :
    digitCount (Decimal.signText negative ++ ds) = ds.length := by
  have hsign : digitCount (Decimal.signText negative) = 0 := by cases negative <;> rfl
  have hall : ∀ d ∈ ds, isDigit d = true := hds.isDigit
  unfold digitCount at hsign ⊢
  rw [List.countP_append, hsign, Nat.zero_add, List.countP_eq_length.mpr hall]

/-- A spelling of an integer has as many digits as the integer. -/
theorem Token.Spelling.fits_iff {cs : List Char} (h : (Token.integer i).Spelling cs) :
    Numeral.Fits i ↔ digitCount cs ≤ Numeral.limit := by
  cases h with
  | natural hds => exact digitCount_signed false hds ▸ Grammar.fits_iff false hds
  | negative hds => exact digitCount_signed true hds ▸ Grammar.fits_iff true hds

/-- The pattern is that of the spellings. -/
theorem matchesInteger_iff {cs : List Char} :
    MatchesInteger cs ↔ ∃ i, (Token.integer i).Spelling cs := by
  constructor
  · rintro (rfl | ⟨negative, c, ds, hc, hne, hds, rfl⟩)
    · exact ⟨_, .natural .zero⟩
    · have hnatural : IsNatural (c :: ds) := .positive hc hne hds
      cases negative with
      | false => exact ⟨_, .natural hnatural⟩
      | true => exact ⟨_, .negative hnatural (ofDigits_ne_zero hc hne hds)⟩
  · rintro ⟨i, hi⟩
    cases hi with
    | natural hds =>
      cases hds with
      | zero => exact .inl rfl
      | positive hc hne hds => exact .inr ⟨false, _, _, hc, hne, hds, rfl⟩
    | negative hds hnonzero =>
      cases hds with
      | zero => exact absurd rfl hnonzero
      | positive hc hne hds => exact .inr ⟨true, _, _, hc, hne, hds, rfl⟩

/-- The integers are read from the texts that match their pattern and are not too long. -/
theorem exists_takes_integer_iff :
    (∃ i, Takes integer s i) ↔ MatchesInteger s.toList ∧ digitCount s.toList ≤ Numeral.limit := by
  simp only [takes_integer_iff, matchesInteger_iff]
  constructor
  · rintro ⟨i, hi, hfits⟩
    exact ⟨⟨i, hi⟩, hi.fits_iff.mp hfits⟩
  · rintro ⟨⟨i, hi⟩, hlimit⟩
    exact ⟨i, hi, hi.fits_iff.mpr hlimit⟩

/-- The rule of integers gives the others up. -/
theorem integer_locate_eq_overlong (h : MatchesInteger s.toList) (hlong : Numeral.limit < digitCount s.toList) :
    integer (locate s) = .error .overlong := by
  obtain ⟨i, hi⟩ := matchesInteger_iff.mp h
  exact hi.offers.integer_eq_overlong (mt hi.fits_iff.mp (Nat.not_le.mpr hlong))

/-- The decimals are read from the texts that match their pattern. -/
theorem matchesDecimal_iff : MatchesDecimal s.toList ↔ ∃ d, Takes decimal s d := by
  simp only [takes_decimal_iff]
  constructor
  · rintro ⟨negative, whole, fraction, hwhole, hne, hall, hs⟩
    rw [hs]
    exact ⟨_, .decimal hwhole hne hall⟩
  · rintro ⟨d, hd⟩
    generalize s.toList = cs at hd
    cases hd with
    | decimal hwhole hne hall => exact ⟨_, _, _, hwhole, hne, hall, rfl⟩

/-! ## Texts -/

theorem toList_toString (i : Int) : (toString i).toList = (Token.integer i).written := by
  change _ = Decimal.signText (i < 0) ++ Decimal.digits i.natAbs
  cases i with
  | ofNat n =>
    have hsign : decide (Int.ofNat n < 0) = false := decide_eq_false (Int.not_lt.mpr (Int.natCast_nonneg n))
    rw [hsign]
    exact String.toList_ofList
  | negSucc n =>
    rw [decide_eq_true (Int.negSucc_lt_zero n)]
    change ("-" ++ toString (n + 1)).toList = _
    rw [String.toList_append]
    exact congrArg ("-".toList ++ ·) String.toList_ofList

/-- The only spelling of an integer that is not too long is its text. -/
theorem text?_integer_eq_some_iff :
    (Scalar.integer i).text? = some s ↔ (Token.integer i).Spelling s.toList ∧ Numeral.Fits i := by
  rw [Scalar.text?]
  unfold Numeral.text?
  split
  next hfits =>
    simp only [Option.some.injEq, hfits, and_true]
    constructor
    · rintro rfl
      rw [toList_toString]
      exact Token.spelling_written trivial
    · intro hs
      have hwritten : s.toList = (Token.integer i).written := hs.writtenAs
      exact String.toList_inj.mp ((toList_toString i).trans hwritten.symm)
  next hlong => simp [hlong]

theorem text?_integer_eq_none (h : ¬ Numeral.Fits i) : (Scalar.integer i).text? = none := if_neg h

/-- The only spelling of a decimal is its text, if it has a digit behind the point. -/
theorem text?_decimal_eq_some_iff (hd : (Value.decimal d).IsLiteral) :
    (Scalar.decimal d).text? = some s ↔ (Token.decimal d).Spelling s.toList := by
  rw [Scalar.text?, Option.some.injEq]
  constructor
  · rintro rfl
    exact Token.spelling_written hd
  · intro hs
    have hwritten : s.toList = (Token.decimal d).written := hs.writtenAs
    exact String.toList_inj.mp hwritten.symm

/-! ## Literals -/

theorem clear_nil : Clear (some .logical) [] := by
  have hnone {text : String} (htext : text ∈ marks) : mark text [] = .error .mismatch := by
    refine eq_mismatch_of_refutes .mark fun h => toList_ne_nil_of_mem_marks htext ?_
    obtain ⟨w, hw, htext⟩ := mark_eq_ok.mp h
    have hnil : w = [] := (List.append_eq_nil_iff.mp hw.symm).1
    rw [← htext, hnil, List.map_nil]
  exact ⟨hnone (by decide), hnone (by decide), fun hop _ => hnone (symbol_mem_marks hop)⟩

/-- The text is an expression that is a literal with the given value: by itself, and where the expression
of a program is expected. -/
structure IsReadAs (s : String) (v : Value) : Prop where
  /-- Nothing of the text is left. -/
  alone (depth : Nat) : expression (depth + 1) (locate s) = .ok (.literal v none (nextPlace (locate s)), [])
  /-- The program that returns it. -/
  returned : (Node.parse? ("FUN main() DO RETURN " ++ s ++ "; END")).map Node.skeleton =
    some (mainOf (.returning (.literal v none .unknown) .unknown) .unknown)

/-- A spelling of a token that is a literal is read as that, if it ends where a semicolon follows and is not
too long. -/
theorem Token.Spelling.isReadAs (hs : t.Spelling s.toList) (hfits : t.Fits) (hv : t.value? = some v)
    (hend : t.continuedBy ';' = false) : IsReadAs s v := by
  refine ⟨fun depth => expression_eq_of_literal hs.offers hfits clear_nil hv, ?_⟩
  obtain ⟨_, hoffers, hrest⟩ := (laidOut_returned hs hend).exists_offersAll
  obtain ⟨_, hheads, hinside⟩ := exists_heads hoffers
  obtain ⟨_, _, hstatement, hend, hskeleton⟩ :=
    statement_returned hinside fun ht hclear => ⟨_, expression_eq_of_literal ht hfits hclear hv, rfl⟩
  rw [hheads.parse?_eq hstatement hend hrest, skeleton_mainOf, hskeleton]

theorem isReadAs_integer (h : (Scalar.integer i).text? = some s) : IsReadAs s (.integer i) := by
  obtain ⟨hs, hfits⟩ := text?_integer_eq_some_iff.mp h
  exact hs.isReadAs hfits rfl rfl

theorem isReadAs_decimal (hd : (Value.decimal d).IsLiteral) (h : (Scalar.decimal d).text? = some s) :
    IsReadAs s (.decimal d) := ((text?_decimal_eq_some_iff hd).mp h).isReadAs trivial rfl rfl

end Grammar

open Grammar

namespace Node

/-- **Numerals are written as they were read, and texts of numbers are read as these numbers**, as long as
they are not too long. The rule of integers reads a whole text exactly if it matches the pattern and has at
most so many digits, and the rule of decimals exactly if it matches the pattern. What is read is a literal
whose text is the text that was read. An integer with at most so many digits has a text, which is read as a
literal with that integer, and so has a finite decimal with a negative exponent, which is read as a literal
with the same sign, coefficient and exponent. Longer integers are given up where they are read and have no
text. -/
theorem numerals_round_trip :
    (∀ s : String, ((∃ i, Takes integer s i) ↔
        MatchesInteger s.toList ∧ digitCount s.toList ≤ Numeral.limit) ∧
      (∀ i, Takes integer s i → IsReadAs s (.integer i) ∧ (Scalar.integer i).text? = some s) ∧
      (MatchesInteger s.toList → Numeral.limit < digitCount s.toList →
        integer (locate s) = .error .overlong)) ∧
    (∀ s : String, (MatchesDecimal s.toList ↔ ∃ d, Takes decimal s d) ∧
      ∀ d, Takes decimal s d → IsReadAs s (.decimal d) ∧ (Scalar.decimal d).text? = some s) ∧
    (∀ i : Int, (Numeral.Fits i → ∃ s, (Scalar.integer i).text? = some s ∧ IsReadAs s (.integer i)) ∧
      (¬ Numeral.Fits i → (Scalar.integer i).text? = none)) ∧
    ∀ negative c (e : Int), e < 0 → ∃ s, (Scalar.decimal (.finite negative c e)).text? = some s ∧
      IsReadAs s (.decimal (.finite negative c e)) := by
  refine ⟨fun s => ⟨exists_takes_integer_iff, fun i hi => ?_, integer_locate_eq_overlong⟩,
    fun s => ⟨matchesDecimal_iff, fun d hd => ?_⟩, fun i => ⟨fun hfits => ?_, text?_integer_eq_none⟩,
    fun negative c e he => ⟨_, rfl, isReadAs_decimal (.decimal negative c he) rfl⟩⟩
  · have htext := text?_integer_eq_some_iff.mpr (takes_integer_iff.mp hi)
    exact ⟨isReadAs_integer htext, htext⟩
  · have hliteral : (Value.decimal d).IsLiteral := (reads_decimal hd.1).1
    have htext := (text?_decimal_eq_some_iff hliteral).mpr (takes_decimal_iff.mp hd)
    exact ⟨isReadAs_decimal hliteral htext, htext⟩
  · have htext : (Scalar.integer i).text? = some (toString i) := if_pos hfits
    exact ⟨_, htext, isReadAs_integer htext⟩

/-- Zeros in front and behind, and a zero with a sign. -/
theorem numerals_round_trip_zeros :
    (Takes decimal "-0.050" (.finite true 50 (-3)) ∧ IsReadAs "-0.050" (.decimal (.finite true 50 (-3))) ∧
      (Scalar.decimal (.finite true 50 (-3))).text? = some "-0.050") ∧
    (Takes integer "-7" (-7) ∧ IsReadAs "-7" (.integer (-7)) ∧ (Scalar.integer (-7)).text? = some "-7") ∧
    (Scalar.decimal (.finite true 0 (-1))).text? = some "-0.0" ∧
    IsReadAs "-0.0" (.decimal (.finite true 0 (-1))) := by
  have hsign : ∀ c ∈ some '-', isBlank c = false := by
    rintro c ⟨⟩
    rfl
  have hdecimal : Takes decimal "-0.050" (.finite true 50 (-3)) := ⟨by decide +kernel, hsign⟩
  have hinteger : Takes integer "-7" (-7) := ⟨by decide +kernel, hsign⟩
  have hzero : (Scalar.decimal (.finite true 0 (-1))).text? = some "-0.0" := by decide +kernel
  refine ⟨⟨hdecimal, (numerals_round_trip.2.1 _).2 _ hdecimal⟩, ⟨hinteger, (numerals_round_trip.1 _).2.1 _ hinteger⟩,
    hzero, ?_⟩
  obtain ⟨s, hs, hread⟩ := numerals_round_trip.2.2.2 true 0 (-1) (by decide)
  obtain rfl : s = "-0.0" := Option.some.inj (hs.symm.trans hzero)
  exact hread

/-- An integer with one digit too many has no text, and its numeral is not read. -/
theorem numerals_too_long :
    (MatchesInteger (ones 4301).toList ∧ ¬ ∃ i, Takes integer (ones 4301) i) ∧
      (Scalar.integer (repunit 4301)).text? = none := by
  have hspelling : (Token.integer (repunit 4301)).Spelling (ones 4301).toList := spelling_ones (by decide)
  have hlong : ¬ Numeral.Fits (repunit 4301) := mt (fits_repunit_iff (by decide)).mp (by decide)
  refine ⟨⟨matchesInteger_iff.mpr ⟨_, hspelling⟩, fun h => ?_⟩, text?_integer_eq_none hlong⟩
  exact hlong (hspelling.fits_iff.mpr (exists_takes_integer_iff.mp h).2)

end Node

end PlcLang
