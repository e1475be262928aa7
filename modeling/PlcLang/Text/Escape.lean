/-!
# Escapes

Inside a character or string literal a backslash and a letter stand for one character.

* `escaped`: the seven escapes.
* `unescape`: the characters that the body of a literal denotes.
-/

namespace PlcLang

/-- Why a body denotes nothing. -/
inductive EscapeFault where
  /-- A backslash before a character that has no meaning there. -/
  | unknown (c : Char)
  /-- A backslash that ends the body. -/
  | dangling
  deriving DecidableEq

/-- What a backslash and `c` stand for. -/
def escaped (c : Char) : Option Char :=
  match c with
  | 'b' => some '\x08'
  | 'n' => some '\n'
  | 'r' => some '\r'
  | 't' => some '\t'
  | '\x27' => some '\x27'
  | '\x22' => some '\x22'
  | '\\' => some '\\'
  | _ => none

/-- The characters that a literal's body denotes, read from left to right. -/
def unescape : List Char → Except EscapeFault (List Char)
  | [] => .ok []
  | c :: rest =>
    if c = '\\' then
      match rest with
      | [] => .error .dangling
      | d :: rest =>
        match escaped d with
        | none => .error (.unknown d)
        | some e => (e :: ·) <$> unescape rest
    else (c :: ·) <$> unescape rest

/-- The character may stand for itself between quotes of the given kind. -/
def isPlainIn (quote c : Char) : Bool :=
  c != quote && c != '\n' && c != '\r' && c != '\\'

end PlcLang
