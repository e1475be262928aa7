import PlcLang.CommandLine.Arguments
import PlcLang.CommandLine.Path
import PlcLang.CommandLine.Report
import PlcLang.Evaluation.Visit
import PlcLang.Grammar.Statement
import PlcLang.Outline
import PlcLang.Typing.Analysis

/-!
# From arguments to a report

A command line either is answered at once or asks for the contents of one file.

* `CommandLine.start`: what the arguments ask for.
* `CommandLine.answer`: the report on a file, given its contents.
-/

namespace PlcLang

/-- Why a file has no contents. -/
inductive Unread where
  | missing
  | denied
  deriving DecidableEq, Inhabited

/-- The next thing to do. -/
inductive Plan where
  /-- Nothing but to report. -/
  | report (r : Report)
  /-- To read a file. -/
  | load (path : String) (flags : List Flag) (paint : Paint)
  deriving Inhabited

namespace CommandLine

/-- What the arguments ask for. Help comes first, then the version. -/
def start (arguments : List String) (terminal : Bool) : Plan :=
  if "-h" ∈ arguments ∨ "--help" ∈ arguments then .report (.exits 0 [] (helpText ⟨terminal⟩))
  else if "-v" ∈ arguments ∨ "--version" ∈ arguments then
    .report (.exits 0 [] (versionText ++ " - A " ++ summaryText ++ "\n"))
  else
    match Arguments.read arguments with
    | .error e => .report (.exits 2 [usageText, "plc: error: " ++ e.message] "")
    | .ok options =>
      .load (Path.shown options.file) options.flags
        ⟨terminal && !options.flags.contains .noColor⟩

/-- A line that names a mistake. -/
def errorLine (paint : Paint) (message : String) : String := paint.red "error:" ++ " " ++ message

/-- What stands for the text of an integer that is too long. -/
def overlongText : String := "an integer has too many digits"

/-- The text of an early end. -/
def stopText : Stop → String
  | .fault e => if e.fault.IsWritable then e.text Fault.message else overlongText
  | .overlong => overlongText
  | .malformed => "malformed tree"
  | .unordered => "no order among these numbers"
  | .unfinished => "no end in sight"

/-- A line that says why the analysis or the run ended early. -/
def stopLine (paint : Paint) (e : Stop) : String := "  " ++ paint.thinRed "→" ++ " " ++ stopText e

/-- The report on a program that was accepted. -/
def runReport (path : String) (quiet : Bool) (paint : Paint) (depth : Nat) (source : Node) :
    Report :=
  let rule := if quiet then [] else [paint.dim ("".pushn '─' 40)]
  match source.run depth with
  | .error e s =>
    .exits 1 (rule ++ [errorLine paint s!"runtime error in {path}", stopLine paint e]) s.register
  | .ok v s =>
    let result := (s.store.datum? v).getD default
    let info := if quiet then [] else [paint.cyan "info:" ++ " main() returned " ++ result.shown?.getD overlongText]
    { Report.exits 0 (rule ++ info) s.register with exit := result }

/-- The report on a text that was read from a file. -/
def sourceReport (path : String) (flags : List Flag) (paint : Paint) (depth : Nat)
    (text : String) : Report :=
  match Node.parse text with
  | .error .mismatch => .exits 1 [errorLine paint s!"parse error in {path}"] ""
  | .error .overlong => .exits 1 [overlongText] ""
  | .ok source =>
    if .ast ∈ flags then .exits 0 [] (source.outline.render ++ "\n")
    else
      match source.analyze with
      | .error e => .exits 1 [errorLine paint s!"semantic error in {path}", stopLine paint e] ""
      | .ok _ =>
        if .check ∈ flags then .exits 0 [paint.boldGreen "✓" ++ s!" no errors in {path}"] ""
        else runReport path (.quiet ∈ flags) paint depth source

/-- The report on a file, given its contents. -/
def answer (path : String) (flags : List Flag) (paint : Paint) (depth : Nat)
    (contents : Except Unread String) : Report :=
  let r := match contents with
    | .error .missing => .exits 1 [errorLine paint s!"file not found: {path}"] ""
    | .error .denied => .exits 1 [errorLine paint s!"permission denied: {path}"] ""
    | .ok text => sourceReport path flags paint depth text
  if Path.hasSuffix ".plc" path then r
  else r.afterLine (paint.yellow "warning:" ++ s!" file does not have .plc extension: {path}")

/-- All line ends of a text file become line feeds. -/
def lineFeeds : List Char → List Char
  | '\r' :: '\n' :: cs => '\n' :: lineFeeds cs
  | '\r' :: cs => '\n' :: lineFeeds cs
  | c :: cs => c :: lineFeeds cs
  | [] => []

/-- The text of a file as it is read. -/
def readText (contents : String) : String := String.ofList (lineFeeds contents.toList)

end CommandLine

end PlcLang
