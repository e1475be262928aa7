import Mathlib.Computability.Language
import PlcLang.Proofs.Grammar.Read

/-!
# Escapes in literals

A body of a literal is read unit by unit: a character that is no backslash stands for itself, and a
backslash goes together with the character behind it. Whether a body denotes anything is decided by
the first unit that is malformed.

* `Denotes`, `Malformed`: the units with what they denote, and what is no unit.
* `exists_units`: every body up to its first malformed unit.
* `unitsIn`: the units that the patterns of literals allow.
* `unescape_laws`: what is decoded, what is refused, and that no literal is refused.
-/

namespace PlcLang

open Grammar
open scoped Computability

/-! ## Units -/

/-- The characters that may stand behind a backslash, and what they stand for there. -/
def escapes : List (Char × Char) :=
  [('b', '\x08'), ('n', '\n'), ('r', '\r'), ('t', '\t'), ('\x27', '\x27'), ('\x22', '\x22'),
    ('\\', '\\')]

/-- The units of a body, each with the character that it denotes. -/
inductive Denotes : List Char → Char → Prop
  | itself {c} : c ≠ '\\' → Denotes [c] c
  | escape {d c} : (d, c) ∈ escapes → Denotes ['\\', d] c

/-- A body that begins with no unit although it is not at its end, and the fault that this is. -/
inductive Malformed : List Char → EscapeFault → Prop
  | unknown {d rest} : (∀ c, (d, c) ∉ escapes) → Malformed ('\\' :: d :: rest) (.unknown d)
  | dangling : Malformed ['\\'] .dangling

theorem escaped_eq_some_iff {d c : Char} : escaped d = some c ↔ (d, c) ∈ escapes := by
  constructor
  · intro h
    unfold escaped at h
    split at h <;> cases h <;> decide
  · intro h
    simp only [escapes, List.mem_cons, Prod.mk.injEq, List.not_mem_nil, or_false] at h
    rcases h with ⟨rfl, rfl⟩ | ⟨rfl, rfl⟩ | ⟨rfl, rfl⟩ | ⟨rfl, rfl⟩ | ⟨rfl, rfl⟩ | ⟨rfl, rfl⟩ | ⟨rfl, rfl⟩ <;>
      rfl

theorem escaped_eq_none_iff {d : Char} : escaped d = none ↔ ∀ c, (d, c) ∉ escapes := by
  simp only [Option.eq_none_iff_forall_ne_some, ne_eq, escaped_eq_some_iff]

/-! ## Bodies -/

/-- Units are decoded one after another. -/
theorem unescape_append {units : List (List Char)} {cs : List Char} (h : List.Forall₂ Denotes units cs)
    (rest : List Char) : unescape (units.flatten ++ rest) = (cs ++ ·) <$> unescape rest := by
  induction h with
  | nil => exact (id_map (unescape rest)).symm
  | @cons unit c units cs hunit _ ih =>
    have hstep (body : List Char) : unescape (unit ++ body) = (c :: ·) <$> unescape body := by
      rw [unescape.eq_def]
      cases hunit with
      | itself hc => exact if_neg hc
      | escape hd => simp [escaped_eq_some_iff.mpr hd]
    rw [List.flatten_cons, List.append_assoc, hstep, ih, ← comp_map]
    rfl

theorem Malformed.unescape_eq {body : List Char} {f : EscapeFault} (h : Malformed body f) :
    unescape body = .error f := by
  rw [unescape.eq_def]
  cases h with
  | unknown hd => simp [escaped_eq_none_iff.mpr hd]
  | dangling => rfl

/-- Every body consists of units up to its end or up to a malformed unit. -/
theorem exists_units (body : List Char) : ∃ units cs rest, List.Forall₂ Denotes units cs ∧
    body = units.flatten ++ rest ∧ (rest = [] ∨ ∃ f, Malformed rest f) := by
  -- the cases are those of the decoder
  fun_induction unescape body with
  | case1 => exact ⟨[], [], [], .nil, rfl, .inl rfl⟩
  | case2 => exact ⟨[], [], _, .nil, rfl, .inr ⟨_, .dangling⟩⟩
  | case3 d rest hd =>
    exact ⟨[], [], _, .nil, rfl, .inr ⟨_, .unknown (escaped_eq_none_iff.mp hd)⟩⟩
  | case4 d _ c hd ih =>
    obtain ⟨units, cs, rest, hunits, rfl, hrest⟩ := ih
    exact ⟨['\\', d] :: units, c :: cs, rest, .cons (.escape (escaped_eq_some_iff.mp hd)) hunits, rfl,
      hrest⟩
  | case5 c _ hc ih =>
    obtain ⟨units, cs, rest, hunits, rfl, hrest⟩ := ih
    exact ⟨[c] :: units, c :: cs, rest, .cons (.itself hc) hunits, rfl, hrest⟩

theorem unescape_eq_ok_iff {body cs : List Char} : unescape body = .ok cs ↔
    ∃ units, List.Forall₂ Denotes units cs ∧ body = units.flatten := by
  constructor
  · intro h
    obtain ⟨units, cs', rest, hunits, rfl, hrest⟩ := exists_units body
    rw [unescape_append hunits] at h
    rcases hrest with rfl | ⟨f, hf⟩
    · obtain rfl : cs' = cs := by simpa [unescape] using h
      exact ⟨units, hunits, List.append_nil _⟩
    · rw [hf.unescape_eq] at h
      cases h
  · rintro ⟨units, hunits, rfl⟩
    have h := unescape_append hunits []
    rw [List.append_nil] at h
    rw [h]
    exact congrArg Except.ok (List.append_nil cs)

theorem unescape_eq_error_iff {body : List Char} {f : EscapeFault} : unescape body = .error f ↔
    ∃ units cs rest, List.Forall₂ Denotes units cs ∧ body = units.flatten ++ rest ∧ Malformed rest f := by
  constructor
  · intro h
    obtain ⟨units, cs, rest, hunits, rfl, hrest⟩ := exists_units body
    refine ⟨units, cs, rest, hunits, rfl, ?_⟩
    rw [unescape_append hunits] at h
    rcases hrest with rfl | ⟨f', hf⟩
    · cases h
    · rw [hf.unescape_eq] at h
      cases h
      exact hf
  · rintro ⟨units, cs, rest, hunits, rfl, hf⟩
    rw [unescape_append hunits, hf.unescape_eq]
    rfl

/-! ## Literals -/

/-- What may stand in the quotes of a literal once, as the patterns of literals have it: a character
that is no quote of this kind, no backslash and no end of a line, or an escape. -/
def unitsIn (quote : Char) : Language Char :=
  {w | (∃ c, w = [c] ∧ c ∉ [quote, '\n', '\r', '\\']) ∨
    ∃ d, w = ['\\', d] ∧ d ∈ ['b', 'n', 'r', 't', '\x27', '\x22', '\\']}

theorem isPlainIn_iff {quote c : Char} :
    isPlainIn quote c = true ↔ c ∉ [quote, '\n', '\r', '\\'] := by
  simp [isPlainIn, and_assoc]

theorem mem_unitsIn {quote : Char} {w : List Char} :
    w ∈ unitsIn quote ↔ ∃ c, Written quote [c] w := by
  constructor
  · rintro (⟨c, rfl, hc⟩ | ⟨d, rfl, hd⟩)
    · exact ⟨c, .plain (isPlainIn_iff.mpr hc) .nil⟩
    · have hescape : ∀ d ∈ ['b', 'n', 'r', 't', '\x27', '\x22', '\\'], (escaped d).isSome = true := by
        simp [escaped]
      obtain ⟨c, hc⟩ := Option.isSome_iff_exists.mp (hescape d hd)
      exact ⟨c, .escape hc .nil⟩
  · rintro ⟨c, h⟩
    cases h with
    | plain hc h =>
      cases h
      exact .inl ⟨c, rfl, isPlainIn_iff.mp hc⟩
    | @escape _ d _ _ hd h =>
      cases h
      refine .inr ⟨d, rfl, ?_⟩
      have hletters : ∀ x ∈ escapes, x.1 ∈ ['b', 'n', 'r', 't', '\x27', '\x22', '\\'] := by decide
      exact hletters _ (escaped_eq_some_iff.mp hd)

/-- The bodies of string literals are those that are written with such units. -/
theorem mem_kstar_unitsIn {quote : Char} {w : List Char} :
    w ∈ (unitsIn quote)∗ ↔ ∃ cs, Written quote cs w := by
  rw [Language.mem_kstar]
  constructor
  · rintro ⟨units, rfl, hunits⟩
    induction units with
    | nil => exact ⟨[], .nil⟩
    | cons unit units ih =>
      obtain ⟨hunit, hunits⟩ := List.forall_mem_cons.mp hunits
      obtain ⟨cs, hcs⟩ := ih hunits
      obtain ⟨c, hc⟩ := mem_unitsIn.mp hunit
      refine ⟨c :: cs, ?_⟩
      cases hc with
      | plain hplain h =>
        cases h
        exact .plain hplain hcs
      | escape hescape h =>
        cases h
        exact .escape hescape hcs
  · rintro ⟨cs, h⟩
    induction h with
    | nil => exact ⟨[], rfl, List.forall_mem_nil _⟩
    | @plain c _ _ hc _ ih =>
      obtain ⟨units, rfl, hunits⟩ := ih
      exact ⟨[c] :: units, rfl, List.forall_mem_cons.mpr ⟨mem_unitsIn.mpr ⟨c, .plain hc .nil⟩, hunits⟩⟩
    | @escape c d _ _ hd _ ih =>
      obtain ⟨units, rfl, hunits⟩ := ih
      exact ⟨['\\', d] :: units, rfl,
        List.forall_mem_cons.mpr ⟨mem_unitsIn.mpr ⟨c, .escape hd .nil⟩, hunits⟩⟩

theorem string_eq_ok_iff {gs rest : List Glyph} {s : String} : string gs = .ok (s, rest) ↔
    ∃ body ∈ (unitsIn '\x22')∗, Splits (skipBlanks gs) ('\x22' :: body ++ ['\x22']) rest ∧
      unescape body = .ok s.toList := by
  rw [string_eq_ok]
  constructor
  · rintro ⟨cs, w, rfl, hw, h⟩
    exact ⟨w, mem_kstar_unitsIn.mpr ⟨cs, hw⟩, h, by rw [hw.unescape_eq, String.toList_ofList]⟩
  · rintro ⟨w, hmem, h, hs⟩
    obtain ⟨cs, hw⟩ := mem_kstar_unitsIn.mp hmem
    obtain rfl : cs = s.toList := Except.ok.inj (hw.unescape_eq.symm.trans hs)
    exact ⟨_, w, String.ofList_toList.symm, hw, h⟩

theorem character_eq_ok_iff {gs rest : List Glyph} {s : String} : character gs = .ok (s, rest) ↔
    ∃ body ∈ unitsIn '\x27', Splits (skipBlanks gs) ('\x27' :: body ++ ['\x27']) rest ∧
      unescape body = .ok s.toList := by
  rw [character_eq_ok]
  constructor
  · rintro ⟨c, w, rfl, hw, h⟩
    exact ⟨w, mem_unitsIn.mpr ⟨c, hw⟩, h, by rw [hw.unescape_eq, String.toList_singleton]⟩
  · rintro ⟨w, hmem, h, hs⟩
    obtain ⟨c, hw⟩ := mem_unitsIn.mp hmem
    have hc : [c] = s.toList := Except.ok.inj (hw.unescape_eq.symm.trans hs)
    refine ⟨c, w, ?_, hw, h⟩
    rw [← String.toList_inj, String.toList_singleton, hc]

/-- **What a body denotes.** A body is decoded exactly if it is a sequence of units, and then to what
they denote, one character for each; so whatever is written with such units, in whichever way, is read
back. Otherwise the first malformed unit says what is wrong. Whatever matches the pattern of a string
is decoded, and what matches the pattern of a character is decoded to one character; literals are read
exactly where a text goes on like this. -/
theorem unescape_laws :
    (∀ body cs, unescape body = .ok cs ↔
      ∃ units, List.Forall₂ Denotes units cs ∧ body = units.flatten) ∧
    (∀ body f, unescape body = .error f ↔ ∃ units cs rest, List.Forall₂ Denotes units cs ∧
      body = units.flatten ++ rest ∧ Malformed rest f) ∧
    (∀ body ∈ (unitsIn '\x22')∗, ∃ cs, unescape body = .ok cs) ∧
    (∀ body ∈ unitsIn '\x27', ∃ c, unescape body = .ok [c]) ∧
    (∀ gs s rest, string gs = .ok (s, rest) ↔ ∃ body ∈ (unitsIn '\x22')∗,
      Splits (skipBlanks gs) ('\x22' :: body ++ ['\x22']) rest ∧ unescape body = .ok s.toList) ∧
    ∀ gs s rest, character gs = .ok (s, rest) ↔ ∃ body ∈ unitsIn '\x27',
      Splits (skipBlanks gs) ('\x27' :: body ++ ['\x27']) rest ∧ unescape body = .ok s.toList := by
  refine ⟨fun _ _ => unescape_eq_ok_iff, fun _ _ => unescape_eq_error_iff, fun body hbody => ?_,
    fun body hbody => ?_, fun _ _ _ => string_eq_ok_iff, fun _ _ _ => character_eq_ok_iff⟩
  · obtain ⟨cs, hw⟩ := mem_kstar_unitsIn.mp hbody
    exact ⟨cs, hw.unescape_eq⟩
  · obtain ⟨c, hw⟩ := mem_unitsIn.mp hbody
    exact ⟨c, hw.unescape_eq⟩

/-- An escaped backslash, and behind it a line end that is escaped too. -/
theorem unescape_laws_backslashes :
    ['\\', '\\', '\\', 'n'] ∈ (unitsIn '\x22')∗ ∧ ['\\', '\\'] ∈ unitsIn '\x27' ∧
      (∃ cs, unescape ['\\', '\\', '\\', 'n'] = .ok cs) ∧ ∃ c, unescape ['\\', '\\'] = .ok [c] := by
  have hstring : ['\\', '\\', '\\', 'n'] ∈ (unitsIn '\x22')∗ :=
    mem_kstar_unitsIn.mpr ⟨['\\', '\n'], .escape rfl (.escape rfl .nil)⟩
  have hcharacter : ['\\', '\\'] ∈ unitsIn '\x27' := mem_unitsIn.mpr ⟨'\\', .escape rfl .nil⟩
  exact ⟨hstring, hcharacter, unescape_laws.2.2.1 _ hstring, unescape_laws.2.2.2.1 _ hcharacter⟩

end PlcLang
