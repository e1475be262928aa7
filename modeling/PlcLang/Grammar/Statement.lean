import PlcLang.Grammar.Expression

/-!
# Statements and programs

A word at its beginning decides which statement is read; without one it is an assignment or a call.
Statements are read as long as possible, before the word that ends their block.

* `Grammar.statement`: the statements whose blocks are nested less than `depth` deep.
* `Grammar.program`: globals, then functions.
* `Node.parse`: the tree of a text.
-/

namespace PlcLang.Grammar

/-- Reads `p` after a mark, if the mark is there. -/
def after {α : Type} (text : String) (p : Parser α) (otherwise : α) : Parser α :=
  commit (mark text) (fun _ => p) (pure otherwise)

/-- The name of a type after a colon. -/
def typeName : Parser String := do
  mark ":"
  name

/-- A declaration. -/
def declaration (place : Place) (expression : Parser Node) : Parser Node := do
  let id ← name
  let type ← after ":" (some <$> name) none
  let value ← after "=" expression .missing
  mark ";"
  return .declaration id type value none place

/-- The cases of a switch that have a value. -/
def case (expression : Parser Node) (block : Parser (List Node)) : Parser Node := do
  let place ← here
  word "CASE"
  let value ← expression
  mark ":"
  return .case value (← block) place

/-- The cases of a switch; the default is the last. -/
def switch (place : Place) (expression : Parser Node) (block : Parser (List Node)) (bound : Nat) :
    Parser Node := do
  let condition ← expression
  let cases ← many (case expression block) bound
  let here ← here
  word "DEFAULT"
  let default := Node.case .missing (← block) here
  word "END"
  return .switch condition (cases ++ [default]) place

/-- A branch with one or two blocks. -/
def conditional (place : Place) (expression : Parser Node) (block : Parser (List Node)) :
    Parser Node := do
  let condition ← expression
  word "DO"
  let thenStatements ← block
  let elseStatements ← commit (word "ELSE") (fun _ => block) (pure [])
  word "END"
  return .conditional condition thenStatements elseStatements place

/-- A loop. -/
def whileLoop (place : Place) (expression : Parser Node) (block : Parser (List Node)) :
    Parser Node := do
  let condition ← expression
  word "DO"
  let statements ← block
  word "END"
  return .whileLoop condition statements place

/-- A return. -/
def returning (place : Place) (expression : Parser Node) : Parser Node := do
  let value ← expression
  mark ";"
  return .returning value place

/-- An assignment, or an expression as a statement. -/
def assignment (place : Place) (expression : Parser Node) : Parser Node := do
  let e ← expression
  let statement ← commit (mark "=") (fun _ => do return .assignment e (← expression) place)
    (pure (.expressionStatement e place))
  mark ";"
  return statement

/-- The statements that begin with a word. -/
def wordedStatements (place : Place) (expression : Parser Node) (block : Parser (List Node))
    (bound : Nat) : List (String × Parser Node) :=
  [("LET", declaration place expression), ("SWITCH", switch place expression block bound),
    ("IF", conditional place expression block), ("WHILE", whileLoop place expression block),
    ("RETURN", returning place expression)]

/-- Statements. -/
def statement : (depth : Nat) → Parser Node
  | 0 => refuse
  | depth + 1 => do
    let place ← here
    byWord (wordedStatements place (expression depth) (many (statement depth) depth) depth)
      (assignment place (expression depth))

/-- A global that holds a list. -/
def globalList (place : Place) (expression : Parser Node) (bound : Nat) : Parser Node := do
  let id ← name
  let type ← typeName
  mark "="
  mark "["
  let elements ← separated expression bound
  mark "]"
  return .global id (some type) true (.listLiteral elements none place) none place

/-- A global that may be assigned to. -/
def globalVariable (place : Place) (expression : Parser Node) : Parser Node := do
  let id ← name
  let type ← typeName
  let value ← after "=" expression .missing
  return .global id (some type) true value none place

/-- A global that keeps its value. -/
def globalConstant (place : Place) (expression : Parser Node) : Parser Node := do
  let id ← name
  let type ← typeName
  mark "="
  return .global id (some type) false (← expression) none place

/-- The globals, each with its word. -/
def wordedGlobals (place : Place) (expression : Parser Node) (bound : Nat) :
    List (String × Parser Node) :=
  [("LIST", globalList place expression bound), ("VAR", globalVariable place expression),
    ("VAL", globalConstant place expression)]

/-- Globals. -/
def global (expression : Parser Node) (bound : Nat) : Parser Node := do
  let place ← here
  let node ← byWord (wordedGlobals place expression bound) refuse
  mark ";"
  return node

/-- A parameter and the name of its type. -/
def parameter : Parser (String × String) := do
  let id ← name
  return (id, ← typeName)

/-- Functions. -/
def function (block : Parser (List Node)) (bound : Nat) : Parser Node := do
  let place ← here
  word "FUN"
  let id ← name
  mark "("
  let parameters ← perhapsSeparated parameter bound
  mark ")"
  let returnType ← after ":" (some <$> name) none
  word "DO"
  let statements ← block
  word "END"
  return .function id (parameters.map (some ·.1)) (parameters.map (some ·.2)) returnType
    statements none place

/-- Programs of at most `depth` glyphs. -/
def program (depth : Nat) : Parser Node := do
  let globals ← many (global (expression depth) depth) depth
  let functions ← many (function (many (statement depth) depth) depth) depth
  finish
  return .source globals functions

end PlcLang.Grammar

namespace PlcLang

/-- The tree of the glyphs of a text. The bound on nesting exceeds what the text can hold. -/
def Node.ofGlyphs (gs : List Glyph) : Except Refusal Node :=
  (Grammar.program (gs.length + 2) gs).map Prod.fst

/-- The tree of a text, its nodes with their places, or why there is none. -/
def Node.parse (text : String) : Except Refusal Node := ofGlyphs (locate text)

/-- The tree of a text. -/
def Node.parse? (text : String) : Option Node := (parse text).toOption

theorem Node.parse?_eq_some_iff {text : String} {t : Node} :
    parse? text = some t ↔ parse text = .ok t := by
  unfold parse?
  cases parse text <;> simp [Except.toOption]

end PlcLang
