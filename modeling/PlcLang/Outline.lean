import PlcLang.Node
import PlcLang.Value.Text

/-!
# Outlines

The tree of a program can be printed as nested objects, for a reader who wants to see how the text
was understood. Places and what the analysis finds are left out.

* `Outline`: texts, numbers, sequences and objects.
* `Outline.render`: one item per line, two blanks for each level, ASCII only.
* `Node.outline`: the outline of a tree.
-/

namespace PlcLang

/-- Nested sequences and objects. -/
inductive Outline where
  | null
  | boolean (b : Bool)
  /-- A numeral, written as it is. -/
  | number (numeral : String)
  | text (s : String)
  | sequence (items : List Outline)
  /-- Named parts, in order. -/
  | object (parts : List (String × Outline))
  deriving Inhabited

namespace Outline

/-! ## Texts -/

/-- A 16-bit unit in four hexadecimal digits. -/
def unitText (n : Nat) : List Char := '\\' :: 'u' :: hexadecimal 4 n

/-- A character between double quotes. -/
def charText (c : Char) : List Char :=
  let n := c.toNat
  if c = '\x22' ∨ c = '\\' then ['\\', c]
  else if c = '\n' then ['\\', 'n']
  else if c = '\r' then ['\\', 'r']
  else if c = '\t' then ['\\', 't']
  else if c = '\x08' then ['\\', 'b']
  else if c = '\x0c' then ['\\', 'f']
  else if 0x20 ≤ n ∧ n < 0x7F then [c]
  else if n < 0x10000 then unitText n
  else unitText (0xD800 + (n - 0x10000) / 0x400) ++ unitText (0xDC00 + (n - 0x10000) % 0x400)

/-- A text between double quotes. -/
def textIn (s : String) : String :=
  "\"" ++ String.ofList (s.toList.flatMap charText) ++ "\""

/-! ## Layout -/

/-- The beginning of a line at a level. -/
def lineAt (level : Nat) : String := "\n" ++ "".pushn ' ' (2 * level)

/-- Lines between an opening and a closing mark, or both marks alone if there are none. -/
def enclosed (opening closing : String) (level : Nat) (lines : List String) : String :=
  if lines.isEmpty then opening ++ closing
  else
    opening ++ lineAt (level + 1) ++ ("," ++ lineAt (level + 1)).intercalate lines ++
      lineAt level ++ closing

mutual

/-- The text of an outline that begins at a level. -/
def renderAt (level : Nat) : Outline → String
  | null => "null"
  | boolean b => if b then "true" else "false"
  | number numeral => numeral
  | text s => textIn s
  | sequence items => enclosed "[" "]" level (renderItems (level + 1) items)
  | object parts => enclosed "\x7b" "\x7d" level (renderParts (level + 1) parts)

/-- The texts of the items of a sequence. -/
def renderItems (level : Nat) : List Outline → List String
  | [] => []
  | o :: os => renderAt level o :: renderItems level os

/-- The texts of the parts of an object. -/
def renderParts (level : Nat) : List (String × Outline) → List String
  | [] => []
  | (name, o) :: ps => (textIn name ++ ": " ++ renderAt level o) :: renderParts level ps

end

/-- The text of an outline. -/
def render (o : Outline) : String := renderAt 0 o

end Outline

/-- The outline of a scalar. Only trees of texts are outlined, so every integer has a numeral. -/
def Scalar.outline : Scalar → Outline
  | nil => .null
  | boolean b => .boolean b
  | integer i => .number (toString i)
  | decimal d => .text d.quoted
  | character s | string s => .text s
  | double x => .number (Double.text x)

/-- The outline of a literal; only a scalar can be written as one. -/
def Value.outline : Value → Outline
  | scalar s => s.outline
  | _ => .null

namespace Node

/-- The outline of a name. -/
def nameOutline : Name → Outline
  | some name => .text name
  | none => .null

/-- The outline of what may be left open. -/
def choiceOutline : Option Bool → Outline
  | some b => .boolean b
  | none => .null

mutual

/-- The outline of a tree. -/
def outline (node : Node) : Outline :=
  let object (parts : List (String × Outline)) : Outline :=
    .object (("__class__", .text node.kind) :: parts)
  match node with
  | missing => .null
  | bare _ => object []
  | literal value _ _ => object [("literal", value.outline)]
  | group expression _ _ => object [("expression", expression.outline)]
  | binary operator left right _ _ =>
    object [("operator", .text operator.symbol), ("left", left.outline), ("right", right.outline)]
  | access name offset _ _ _ => object [("name", nameOutline name), ("offset", offset.outline)]
  | call name arguments _ _ _ =>
    object [("name", nameOutline name), ("arguments", .sequence (outlines arguments))]
  | listLiteral elements _ _ => object [("elements", .sequence (outlines elements))]
  | expressionStatement expression _ => object [("expression", expression.outline)]
  | declaration name typeName value _ _ =>
    object [("name", nameOutline name), ("type_name", nameOutline typeName),
      ("value", value.outline)]
  | assignment receiver value _ =>
    object [("receiver", receiver.outline), ("value", value.outline)]
  | conditional condition thenStatements elseStatements _ =>
    object [("condition", condition.outline),
      ("then_statements", .sequence (outlines thenStatements)),
      ("else_statements", .sequence (outlines elseStatements))]
  | case value statements _ =>
    object [("value", value.outline), ("statements", .sequence (outlines statements))]
  | switch condition cases _ =>
    object [("condition", condition.outline), ("cases", .sequence (outlines cases))]
  | whileLoop condition statements _ =>
    object [("condition", condition.outline), ("statements", .sequence (outlines statements))]
  | returning value _ => object [("value", value.outline)]
  | global name typeName mutable value _ _ =>
    object [("name", nameOutline name), ("type_name", nameOutline typeName),
      ("mutable", choiceOutline mutable), ("value", value.outline)]
  | function name parameters parameterTypeNames returnTypeName statements _ _ =>
    object [("name", nameOutline name), ("parameters", .sequence (parameters.map nameOutline)),
      ("parameter_type_names", .sequence (parameterTypeNames.map nameOutline)),
      ("return_type_name", nameOutline returnTypeName),
      ("statements", .sequence (outlines statements))]
  | source globals functions =>
    object [("globals", .sequence (outlines globals)),
      ("functions", .sequence (outlines functions))]

/-- The outlines of trees. -/
def outlines : List Node → List Outline
  | [] => []
  | node :: nodes => node.outline :: outlines nodes

end

end Node

end PlcLang
