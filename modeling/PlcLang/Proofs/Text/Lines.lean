import Mathlib.Data.List.Basic
import PlcLang.Text.Place

/-!
# Lines

A line goes on until one of ten characters ends it; a carriage return with a line feed behind it
ends one line, not two. The places of glyphs count these lines and the characters in them.

* `lines`: the lines of a text, each with what ends it.
* `Place.Before`: the order of the places in a text.
* `exists_of_mem_locate`: what stands at the place of a glyph is its character.
* `pairwise_locate`: glyphs stand one after another.
-/

namespace PlcLang

/-! ## The lines of a text -/

/-- The lines, of which the first one has one more character in front. -/
def lengthen (c : Char) : List (List Char) → List (List Char)
  | [] => [[c]]
  | line :: rest => (c :: line) :: rest

/-- The lines of a text, each with what ends it. -/
def lines : List Char → List (List Char)
  | '\r' :: '\n' :: rest => ['\r', '\n'] :: lines rest
  | c :: rest => if c ∈ lineEnds then [c] :: lines rest else lengthen c (lines rest)
  | [] => []

/-- A line feed ends a line of its own only if no carriage return stands before it. -/
example : lines "a\r\nb\rc\n\nd\u2029e".toList =
    [['a', '\r', '\n'], ['b', '\r'], ['c', '\n'], ['\n'], ['d', '\u2029'], ['e']] := by decide

/-- The character that stands on a line and in a column, both counted from zero. -/
def charAt (lines : List (List Char)) (i j : Nat) : Option Char := do (← lines[i]?)[j]?

theorem charAt_lengthen_zero (c : Char) (rest : List (List Char)) (j : Nat) :
    charAt (lengthen c rest) 0 (j + 1) = charAt rest 0 j := by
  cases rest <;> rfl

theorem charAt_lengthen_succ (c : Char) (rest : List (List Char)) (i j : Nat) :
    charAt (lengthen c rest) (i + 1) j = charAt rest (i + 1) j := by
  cases rest <;> rfl

theorem charAt_lengthen_first (c : Char) (rest : List (List Char)) :
    charAt (lengthen c rest) 0 0 = some c := by
  cases rest <;> rfl

/-! ## The order of places -/

namespace Place

/-- The place stands before the other one: on an earlier line, or further left on the same line. -/
def Before (p q : Place) : Prop :=
  ∃ l k m n : Nat, p = .known l k ∧ q = .known m n ∧ (l < m ∨ l = m ∧ k < n)

theorem known_inj {l k m n : Nat} : known l k = known m n ↔ l = m ∧ k = n := by
  simp only [known, mk.injEq, Option.some.injEq, Int.natCast_inj]

theorem before_known {l k m n : Nat} : (known l k).Before (known m n) ↔ l < m ∨ l = m ∧ k < n := by
  constructor
  · rintro ⟨l', k', m', n', hp, hq, h⟩
    obtain ⟨rfl, rfl⟩ := known_inj.mp hp
    obtain ⟨rfl, rfl⟩ := known_inj.mp hq
    exact h
  · exact fun h => ⟨l, k, m, n, rfl, rfl, h⟩

theorem Before.asymm {p q : Place} (h : p.Before q) : ¬ q.Before p := by
  obtain ⟨l, k, m, n, rfl, rfl, h⟩ := h
  rw [before_known]
  omega

theorem Before.irrefl (p : Place) : ¬ p.Before p := fun h => h.asymm h

end Place

/-! ## Glyphs -/

/-- The line ends after the character, unless both are part of a longer end. -/
theorem endsLine_eq {c : Char} {rest : List Char}
    (h : ∀ rest', c = '\r' → rest = '\n' :: rest' → False) : endsLine c rest = decide (c ∈ lineEnds) := by
  have hpart : (c == '\r' && rest.head? == some '\n') = false := by
    cases rest with
    | nil => simp
    | cons d rest =>
      refine Bool.eq_false_iff.mpr fun hcd => ?_
      simp only [List.head?_cons, Bool.and_eq_true, beq_iff_eq, Option.some.injEq] at hcd
      exact h rest hcd.1 (by rw [hcd.2])
  rw [endsLine, hpart, Bool.not_false, Bool.and_true]

/-- The glyph stands where its character stands in the lines, of which the first is the line `l`. The
columns of this line are counted from `k`. -/
def Glyph.StandsIn (g : Glyph) (l k : Nat) (lines : List (List Char)) : Prop :=
  ∃ i j, g.place = .known (l + i) ((if i = 0 then k else 1) + j) ∧ charAt lines i j = some g.char

theorem Glyph.StandsIn.cons {g : Glyph} {l : Nat} {rest : List (List Char)}
    (h : g.StandsIn (l + 1) 1 rest) (k : Nat) (line : List Char) : g.StandsIn l k (line :: rest) := by
  obtain ⟨i, j, hplace, hchar⟩ := h
  refine ⟨i + 1, j, ?_, hchar⟩
  rw [hplace, ite_self, if_neg i.succ_ne_zero, Nat.add_assoc, Nat.add_comm 1]

theorem Glyph.StandsIn.lengthen {g : Glyph} {l k : Nat} {lines : List (List Char)}
    (h : g.StandsIn l (k + 1) lines) (c : Char) : g.StandsIn l k (lengthen c lines) := by
  obtain ⟨i, j, hplace, hchar⟩ := h
  cases i with
  | zero =>
    refine ⟨0, j + 1, ?_, (charAt_lengthen_zero ..).trans hchar⟩
    rw [hplace, if_pos rfl, if_pos rfl, Nat.add_assoc, Nat.add_comm 1]
  | succ i => exact ⟨i + 1, j, hplace, (charAt_lengthen_succ ..).trans hchar⟩

theorem standsIn_lines {l k : Nat} {cs : List Char} {g : Glyph} (h : g ∈ locateFrom l k cs) :
    g.StandsIn l k (lines cs) := by
  fun_induction lines cs generalizing l k with
  | case1 rest ih =>
    have hsplit : locateFrom l k ('\r' :: '\n' :: rest) =
        ⟨'\r', .known l k⟩ :: ⟨'\n', .known l (k + 1)⟩ :: locateFrom (l + 1) 1 rest := rfl
    rw [hsplit, List.mem_cons, List.mem_cons] at h
    rcases h with rfl | rfl | h
    · exact ⟨0, 0, rfl, rfl⟩
    · exact ⟨0, 1, rfl, rfl⟩
    · exact (ih h).cons ..
  | case2 c rest hcrlf hends ih =>
    rw [locateFrom, endsLine_eq hcrlf, decide_eq_true hends, if_pos rfl] at h
    rcases List.mem_cons.mp h with rfl | h
    · exact ⟨0, 0, rfl, rfl⟩
    · exact (ih h).cons ..
  | case3 c rest hcrlf hends ih =>
    rw [locateFrom, endsLine_eq hcrlf, decide_eq_false hends, if_neg Bool.false_ne_true] at h
    rcases List.mem_cons.mp h with rfl | h
    · exact ⟨0, 0, rfl, charAt_lengthen_first c _⟩
    · exact (ih h).lengthen c
  | case4 => cases h

/-- **What stands at the place of a glyph is its character.** -/
theorem exists_of_mem_locate {text : String} {g : Glyph} (h : g ∈ locate text) :
    ∃ i j, g.place = .known (i + 1) (j + 1) ∧ charAt (lines text.toList) i j = some g.char := by
  obtain ⟨i, j, hplace, hchar⟩ := standsIn_lines h
  refine ⟨i, j, ?_, hchar⟩
  rw [hplace, ite_self, Nat.add_comm 1, Nat.add_comm 1]

theorem pairwise_locateFrom (l k : Nat) (cs : List Char) :
    ((locateFrom l k cs).map Glyph.place).Pairwise Place.Before := by
  induction cs generalizing l k with
  | nil => exact .nil
  | cons c rest ih =>
    rw [locateFrom, List.map_cons, List.pairwise_cons]
    constructor
    · intro p hp
      obtain ⟨g, hg, rfl⟩ := List.mem_map.mp hp
      split at hg <;> obtain ⟨i, j, hplace, -⟩ := standsIn_lines hg <;>
        rw [hplace, Place.before_known]
      · omega
      · split <;> omega
    · split <;> exact ih ..

/-- **Glyphs stand one after another.** -/
theorem pairwise_locate (text : String) :
    ((locate text).map Glyph.place).Pairwise Place.Before := pairwise_locateFrom 1 1 text.toList

end PlcLang
