import PlcLang.Text.Digit
import PlcLang.Text.Quoted

/-!
# Arguments

A command line names one file and any of four flags, in any order. A long flag may be shortened as
long as it is not mistaken, and short flags may be written together. After `--` everything is a file
name.

* `Arguments.read`: the options, or why the arguments are refused.
-/

namespace PlcLang

/-- The flags. -/
inductive Flag where
  | check
  | ast
  | noColor
  | quiet
  deriving DecidableEq, Inhabited

namespace Flag

/-- How a flag may be written. -/
def names : Flag → List String
  | check => ["--check"]
  | ast => ["--ast"]
  | noColor => ["--no-color"]
  | quiet => ["--quiet", "-q"]

/-- All ways to write flags. -/
def spellings : List (String × Flag) :=
  [check, ast, noColor, quiet].flatMap fun f => f.names.map (·, f)

end Flag

/-- What the command line asks for. -/
structure Options where
  file : String
  flags : List Flag
  deriving Inhabited

namespace Arguments

/-- Why arguments are refused. -/
inductive Refusal where
  /-- No file is named. -/
  | missingFile
  /-- Arguments that have no place. -/
  | unrecognized (arguments : List String)
  /-- A flag that takes no value has one. -/
  | ignoredValue (flag : Flag) (value : String)
  /-- A short form of several flags. -/
  | ambiguous (argument : String) (candidates : List String)
  deriving DecidableEq, Inhabited

/-- The refusal in words. -/
def Refusal.message : Refusal → String
  | missingFile => "the following arguments are required: FILE"
  | unrecognized arguments => "unrecognized arguments: " ++ " ".intercalate arguments
  | ignoredValue flag value =>
    "argument " ++ "/".intercalate flag.names ++ ": ignored explicit argument " ++ quoted value
  | ambiguous argument candidates =>
    "ambiguous option: " ++ argument ++ " could match " ++ ", ".intercalate candidates

/-- What an argument may be. -/
inductive Item where
  /-- A file name. -/
  | word (text : String)
  /-- The mark before which alone flags stand. -/
  | separator
  /-- A flag, how it is written, and what is joined to it. -/
  | flag (spelling : String) (flag : Flag) (value : Option (List Char))
  /-- A flag that does not exist. -/
  | unknown (text : String)
  deriving Inhabited

/-- Digits, with a point before the last of them or none. -/
def isNumeral (cs : List Char) : Bool :=
  match cs.dropWhile isDecimalDigit with
  | [] => !cs.isEmpty
  | '.' :: ds => !ds.isEmpty && ds.all isDecimalDigit
  | _ => false

/-- A number with a minus sign; a line feed may end it. -/
def isNegativeNumber (cs : List Char) : Bool :=
  match cs with
  | '-' :: cs => isNumeral cs || cs.getLast? = some '\n' && isNumeral cs.dropLast
  | _ => false

/-- The part before the first equals sign and the part after it. -/
def splitValue (cs : List Char) : Option (List Char × List Char) :=
  match cs.dropWhile (· != '=') with
  | _ :: value => some (cs.takeWhile (· != '='), value)
  | [] => none

/-- The flags that an argument shortens, each with what is joined to it. -/
def shortened (cs : List Char) : List (String × Flag × Option (List Char)) :=
  match cs with
  | '-' :: '-' :: _ =>
    let (stem, value) := match splitValue cs with
      | some (stem, value) => (stem, some value)
      | none => (cs, none)
    (Flag.spellings.filter fun s => stem.isPrefixOf s.1.toList).map fun s => (s.1, s.2, value)
  | '-' :: c :: rest =>
    (Flag.spellings.filter fun s => s.1.toList = ['-', c]).map fun s =>
      (s.1, s.2, some rest)
  | _ => []

/-- An argument that is no known flag and shortens none: a file name if it looks like a number or
has a blank in it. -/
def unflagged (text : String) : Item :=
  if isNegativeNumber text.toList ∨ ' ' ∈ text.toList then .word text else .unknown text

/-- The flag that an argument names in full, with what is joined to it by an equals sign. -/
def named? (cs : List Char) : Option Item := do
  let (stem, value) ← splitValue cs
  let f ← Flag.spellings.lookup (String.ofList stem)
  return .flag (String.ofList stem) f (some value)

/-- What an argument before the separator is. -/
def classify (text : String) : Except Refusal Item :=
  let cs := text.toList
  if cs.head? ≠ some '-' ∨ cs.length = 1 then .ok (.word text)
  else if text = "--" then .ok .separator
  else
    match Flag.spellings.lookup text, named? cs, shortened cs with
    | some f, _, _ => .ok (.flag text f none)
    | none, some item, _ => .ok item
    | none, none, [] => .ok (unflagged text)
    | none, none, [(spelling, f, value)] => .ok (.flag spelling f value)
    | none, none, several => .error (.ambiguous text (several.map (·.1)))

/-- What the arguments are; all are looked at before any takes effect. -/
def items : List String → Except Refusal (List Item)
  | [] => .ok []
  | a :: as => do
    match ← classify a with
    | .separator => return .separator :: as.map .word
    | item => return item :: (← items as)

/-- What was read so far; the extra arguments have no place. -/
structure Progress where
  file : Option String := none
  flags : List Flag := []
  extra : List String := []

/-- A flag and what is joined to it: other short flags, if it is a short one. -/
def joined (flags : List Flag) (spelling : String) (f : Flag) :
    (value : List Char) → Except Refusal (List Flag)
  | [] => .error (.ignoredValue f "")
  | c :: rest =>
    let short := String.ofList ['-', c]
    match if "--".isPrefixOf spelling then none else Flag.spellings.lookup short with
    | none => .error (.ignoredValue f (String.ofList (c :: rest)))
    | some g => if rest = [] then .ok (g :: f :: flags) else joined (f :: flags) short g rest

/-- The text of an argument that is no flag. -/
def plainText : Item → String
  | .word text | .flag text _ _ | .unknown text => text
  | .separator => "--"

/-- The argument is no flag. -/
def isPlain : Item → Bool
  | .word _ | .separator => true
  | _ => false

/-- Arguments between flags: the first is the file unless there is one, the others have no place. -/
def place (p : Progress) (plain : List Item) : Progress :=
  let isSeparator : Item → Bool
    | .separator => true
    | _ => false
  match p.file, plain.dropWhile isSeparator with
  | none, .word text :: rest =>
    { p with file := some text, extra := p.extra ++ (rest.dropWhile isSeparator).map plainText }
  | _, _ => { p with extra := p.extra ++ plain.map plainText }

/-- Reads items; `plain` holds those since the last flag. -/
def consume (p : Progress) (plain : List Item) : List Item → Except Refusal Progress
  | [] => .ok (place p plain)
  | item :: rest =>
    if isPlain item then consume p (plain ++ [item]) rest
    else
      let p := place p plain
      match item with
      | .flag _ f none => consume { p with flags := f :: p.flags } [] rest
      | .flag spelling f (some value) => do
        consume { p with flags := ← joined p.flags spelling f value } [] rest
      | item => consume { p with extra := p.extra ++ [plainText item] } [] rest

/-- The options that the arguments ask for. -/
def read (arguments : List String) : Except Refusal Options := do
  let p ← consume {} [] (← items arguments)
  match p.file, p.extra with
  | none, _ => .error .missingFile
  | some file, [] => .ok { file, flags := p.flags }
  | some _, extra => .error (.unrecognized extra)

end Arguments

end PlcLang
