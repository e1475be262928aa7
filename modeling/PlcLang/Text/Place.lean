/-!
# Places in a text

A place is a line and a column, both counted from one, columns in code points. A node that was not
read from a text may lack either.

* `Glyph`: a character together with its place.
* `locate`: the glyphs of a text.
-/

namespace PlcLang

/-- A line and a column, where known. -/
structure Place where
  line : Option Int
  column : Option Int
  deriving DecidableEq, Inhabited

namespace Place

/-- The place of what was not read from a text. -/
def unknown : Place := ⟨none, none⟩

/-- The place with both parts known. -/
def known (line column : Nat) : Place := ⟨some line, some column⟩

end Place

/-- A character of a text and where it stands. -/
structure Glyph where
  char : Char
  place : Place
  deriving DecidableEq, Inhabited

/-- The characters that end a line by themselves. -/
def lineEnds : List Char :=
  ['\n', '\r', '\x0B', '\x0C', '\x1C', '\x1D', '\x1E', '\u0085', '\u2028', '\u2029']

/-- A line ends after `c` when `rest` follows: a carriage return and a line feed end one line. -/
def endsLine (c : Char) (rest : List Char) : Bool :=
  c ∈ lineEnds && !(c == '\r' && rest.head? == some '\n')

/-- The glyphs of a text whose first character stands at the given line and column. -/
def locateFrom (line column : Nat) : List Char → List Glyph
  | [] => []
  | c :: rest =>
    ⟨c, .known line column⟩ ::
      if endsLine c rest then locateFrom (line + 1) 1 rest else locateFrom line (column + 1) rest

/-- The glyphs of a text. -/
def locate (text : String) : List Glyph := locateFrom 1 1 text.toList

/-- The glyphs of a text whose places are of no interest. -/
def unlocated (text : String) : List Glyph := text.toList.map (⟨·, .unknown⟩)

theorem map_char_locateFrom (line column : Nat) (cs : List Char) :
    (locateFrom line column cs).map Glyph.char = cs := by
  induction cs generalizing line column with
  | nil => rfl
  | cons c rest ih =>
    simp only [locateFrom, List.map_cons, List.cons.injEq, true_and]
    split <;> exact ih ..

/-- The glyphs of a text are its characters, in order. -/
theorem map_char_locate (text : String) : (locate text).map Glyph.char = text.toList :=
  map_char_locateFrom 1 1 text.toList

end PlcLang
