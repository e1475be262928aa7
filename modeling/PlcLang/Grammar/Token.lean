import PlcLang.Number.Numeral
import PlcLang.Text.Blank
import PlcLang.Text.Escape
import PlcLang.Text.Place

/-!
# Tokens

A token is read after any blanks before it. There is no separate list of tokens: which token is
meant depends on where it is read, so `a-1` is one name and `1-1` a difference.

* `Parser`: reads a prefix of the glyphs or refuses.
* `Refusal`: why; a numeral that is too long ends the reading of the whole text.
* `word`, `mark`, `name`, `decimal`, `integer`, `character`, `string`: the tokens.
* `many`, `separated`: repetition.
-/

namespace PlcLang

/-- Why a parser refuses. -/
inductive Refusal where
  /-- The glyphs begin with something else. -/
  | mismatch
  /-- The glyphs reach a numeral that is too long for an integer. -/
  | overlong
  deriving DecidableEq, Inhabited

/-- A parser reads something from the front of the glyphs, or refuses. -/
abbrev Parser := StateT (List Glyph) (Except Refusal)

namespace Grammar

/-! ## Combinators -/

/-- Refuses. -/
def refuse {α : Type} : Parser α := fun _ => .error .mismatch

/-- Refuses a numeral that is too long. -/
def overlong {α : Type} : Parser α := fun _ => .error .overlong

/-- Skips the blanks in front. -/
def skipBlanks (gs : List Glyph) : List Glyph := gs.dropWhile fun g => isBlank g.char

/-- The place of the next token. -/
def here : Parser Place := fun gs =>
  .ok (((skipBlanks gs).head?.map Glyph.place).getD .unknown, gs)

/-- Reads after the blanks in front. -/
def token {α : Type} (p : Parser α) : Parser α := fun gs => p (skipBlanks gs)

/-- Reads `tail` if `head` can be read, and then only that; else `otherwise`. Nothing else is tried
after a numeral that is too long. -/
def commit {α β : Type} (head : Parser α) (tail : α → Parser β) (otherwise : Parser β) : Parser β :=
  fun gs =>
    match head gs with
    | .ok (a, rest) => tail a rest
    | .error .mismatch => otherwise gs
    | .error .overlong => .error .overlong

/-- Reads `p` as often as possible, at most `bound` times. -/
def many {α : Type} (p : Parser α) : (bound : Nat) → Parser (List α)
  | 0 => pure []
  | bound + 1 => commit p (fun a => do return a :: (← many p bound)) (pure [])

/-- The end of the text. -/
def finish : Parser Unit := fun gs =>
  if (skipBlanks gs).isEmpty then .ok ((), []) else .error .mismatch

/-! ## Marks, words and names -/

/-- Reads the given characters. -/
def literally : List Char → Parser Unit
  | [] => pure ()
  | c :: cs => fun gs =>
    match gs with
    | g :: rest => if g.char = c then literally cs rest else .error .mismatch
    | [] => .error .mismatch

/-- A mark of punctuation. -/
def mark (text : String) : Parser Unit := token (literally text.toList)

/-- Refuses before a character that passes the test, and reads nothing. -/
def notBefore (test : Char → Bool) : Parser Unit := fun gs =>
  match gs with
  | g :: _ => if test g.char then .error .mismatch else .ok ((), gs)
  | [] => .ok ((), gs)

/-- A word of the language, which no letter or digit follows. -/
def word (text : String) : Parser Unit := token do
  literally text.toList
  notBefore Char.isAlphanum

/-- Reads what goes with the first of the words that can be read; without one, `otherwise`. -/
def byWord {α : Type} (choices : List (String × Parser α)) (otherwise : Parser α) : Parser α :=
  match choices with
  | [] => otherwise
  | (w, p) :: choices => commit (word w) (fun _ => p) (byWord choices otherwise)

/-- The words that are no names. -/
def keywords : List String :=
  ["LIST", "VAR", "VAL", "FUN", "DO", "END", "LET", "SWITCH", "CASE", "DEFAULT", "IF", "ELSE",
    "WHILE", "RETURN", "NIL", "TRUE", "FALSE"]

/-- The character may begin a name. -/
def beginsName (c : Char) : Bool := c.isAlpha || c == '@'

/-- The character may continue a name. -/
def continuesName (c : Char) : Bool := c.isAlphanum || c == '_' || c == '-'

/-- The characters up to the first that fails the test. -/
def run (test : Char → Bool) : Parser (List Char) := fun gs =>
  .ok ((gs.takeWhile fun g => test g.char).map Glyph.char, gs.dropWhile fun g => test g.char)

/-- One character that passes the test. -/
def one (test : Char → Bool) : Parser Char := fun gs =>
  match gs with
  | g :: rest => if test g.char then .ok (g.char, rest) else .error .mismatch
  | [] => .error .mismatch

/-- A name: as long as possible, and no keyword. -/
def name : Parser String := token do
  let first ← one beginsName
  let text := String.ofList (first :: (← run continuesName))
  if text ∈ keywords then refuse else pure text

/-! ## Numerals -/

/-- A decimal digit. -/
def isDigit (c : Char) : Bool := c.isDigit

/-- A sign or none. -/
def sign : Parser Bool := commit (one (· == '-')) (fun _ => pure true) (pure false)

/-- A natural number without leading zeros. -/
def natural : Parser (List Char) := do
  let first ← one isDigit
  if first = '0' then pure ['0'] else return first :: (← run isDigit)

/-- A decimal: a point with digits on both sides. -/
def decimal : Parser Decimal := token do
  let negative ← sign
  let whole ← natural
  let _ ← one (· == '.')
  let first ← one isDigit
  return .ofParts negative whole (first :: (← run isDigit))

/-- The integer with the given sign and digits; zero has no sign. -/
def integerOf (negative : Bool) (digits : List Char) : Parser Int :=
  let value := Decimal.ofDigits digits
  if negative && value == 0 then refuse
  else if Numeral.limit < digits.length then overlong
  else return if negative then -(value : Int) else value

/-- An integer. -/
def integer : Parser Int := token do
  let negative ← sign
  integerOf negative (← natural)

/-! ## Characters and strings -/

/-- The body of a literal: characters that may stand there and escapes. -/
def body (quote : Char) : List Glyph → List Char × List Glyph
  | [] => ([], [])
  | g :: rest =>
    if isPlainIn quote g.char then
      let (cs, rest) := body quote rest
      (g.char :: cs, rest)
    else if g.char = '\\' then
      match rest with
      | [] => ([], [g])
      | h :: rest =>
        if (escaped h.char).isSome then
          let (cs, rest) := body quote rest
          ('\\' :: h.char :: cs, rest)
        else ([], g :: h :: rest)
    else ([], g :: rest)

/-- The characters that a literal in the given quotes denotes. -/
def inQuotes (quote : Char) : Parser (List Char) := token do
  let _ ← one (· == quote)
  let cs ← fun gs => .ok (body quote gs)
  let _ ← one (· == quote)
  match unescape cs with
  | .ok cs => pure cs
  | .error _ => refuse

/-- A character literal. -/
def character : Parser String := do
  let cs ← inQuotes '\x27'
  if cs.length = 1 then pure (String.ofList cs) else refuse

/-- A string literal. -/
def string : Parser String := do return String.ofList (← inQuotes '\x22')

/-! ## Lists with commas -/

/-- The items after the first one, each after a comma. -/
def afterCommas {α : Type} (item : Parser α) : (bound : Nat) → Parser (List α)
  | 0 => pure []
  | bound + 1 =>
    commit (mark ",") (fun _ => do
      let a ← item
      return a :: (← afterCommas item bound)) (pure [])

/-- At least one item. -/
def separated {α : Type} (item : Parser α) (bound : Nat) : Parser (List α) := do
  let a ← item
  return a :: (← afterCommas item bound)

/-- Any number of items; one comma may stand before the first. -/
def perhapsSeparated {α : Type} (item : Parser α) (bound : Nat) : Parser (List α) :=
  commit item (fun a => do return a :: (← afterCommas item bound)) (afterCommas item bound)

end Grammar

end PlcLang
