import PlcLang.Value.Text

/-!
# Reports

What a command line leaves behind: the value to exit with and the texts for the two streams. Texts
for a terminal are painted.

* `Report`: the streams and the exit value.
* `Report.exitStatus`: the status that the operating system sees.
* `Paint`: the colours, which are absent when nothing is painted.
* `helpText`: the help.
-/

namespace PlcLang

/-- What a command line leaves behind: the value to exit with and the texts for the output stream
and the error stream. -/
structure Report where
  exit : Datum
  out : String := ""
  err : String := ""
  deriving Inhabited

namespace Report

/-- The report with a line more on the error stream. -/
def afterLine (line : String) (r : Report) : Report := { r with err := line ++ "\n" ++ r.err }

/-- A report that exits with a number. -/
def exits (status : Int) (lines : List String) (out : String) : Report :=
  { exit := .scalar (.integer status), out, err := String.join (lines.map (· ++ "\n")) }

/-- The status that the operating system sees, and a line if the value is no number. The line is empty
if the value cannot be written. -/
def exitStatus (r : Report) : Nat × Option String :=
  match r.exit with
  | .scalar .nil => (0, none)
  | .scalar (.integer i) => ((i % 256).toNat, none)
  | .scalar (.boolean b) => (if b then 1 else 0, none)
  | d => (1, some (d.shown?.getD ""))

end Report

/-- Whether texts are painted. -/
structure Paint where
  isOn : Bool
  deriving DecidableEq, Inhabited

namespace Paint

/-- Sets a text between two control sequences. -/
def between (p : Paint) (start text : String) : String :=
  if p.isOn then start ++ text ++ "\x1b[0m" else text

/-- Bold cyan: headings and information. -/
def cyan (p : Paint) (text : String) : String := p.between "\x1b[96m\x1b[1m" text

/-- Bold yellow: options and warnings. -/
def yellow (p : Paint) (text : String) : String := p.between "\x1b[93m\x1b[1m" text

/-- Bold red: mistakes. -/
def red (p : Paint) (text : String) : String := p.between "\x1b[91m\x1b[1m" text

/-- Bold green: success. -/
def boldGreen (p : Paint) (text : String) : String := p.between "\x1b[92m\x1b[1m" text

/-- Green: arguments and types. -/
def green (p : Paint) (text : String) : String := p.between "\x1b[92m" text

/-- Red: the arrow before a fault. -/
def thinRed (p : Paint) (text : String) : String := p.between "\x1b[91m" text

/-- Dim: what may be overlooked. -/
def dim (p : Paint) (text : String) : String := p.between "\x1b[2m" text

end Paint

/-- The name and the version of the program. -/
def versionText : String := "plc 0.1.0"

/-- What the program is. -/
def summaryText : String := "small typed language with a tree-walking interpreter"

/-- The line that shows how the program is called. -/
def usageText : String := "usage: plc [--check] [--ast] [--no-color] [--quiet] FILE"

/-- The help. -/
def helpText (p : Paint) : String :=
  "\n".intercalate [
    p.cyan versionText ++ "  " ++ p.dim ("a " ++ summaryText),
    "",
    p.cyan "Usage:" ++ " plc " ++ p.green "FILE" ++ " [" ++ p.yellow "OPTIONS" ++ "]",
    "",
    p.cyan "Arguments:",
    "  " ++ p.green "FILE" ++ "                   PLC source file (.plc)",
    "",
    p.cyan "Options:",
    "  " ++ p.yellow "-h" ++ ", " ++ p.yellow "--help" ++
      "             Show this help message and exit",
    "  " ++ p.yellow "-v" ++ ", " ++ p.yellow "--version" ++ "          Show version and exit",
    "  " ++ p.yellow "--check" ++ "                Only run semantic checks",
    "  " ++ p.yellow "--ast" ++ "                  Print the parsed AST",
    "  " ++ p.yellow "--no-color" ++ "             Disable colored output",
    "  " ++ p.yellow "-q" ++ ", " ++ p.yellow "--quiet" ++ "            Suppress info messages",
    "",
    p.cyan "Examples:",
    "  " ++ p.dim "$" ++ " plc hello.plc                  " ++ p.dim "# Run the program",
    "  " ++ p.dim "$" ++ " plc hello.plc " ++ p.yellow "--check" ++ "          " ++
      p.dim "# Check for errors",
    "",
    p.cyan "Types:",
    "  " ++ "  ".intercalate
      (["Nil", "Any", "Comparable", "Boolean", "Integer", "Decimal", "Character", "String"].map
        p.green),
    "",
    p.dim "The exit status is the Integer returned by main().",
    "",
    ""]

end PlcLang
