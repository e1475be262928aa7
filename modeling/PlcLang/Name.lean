/-!
# Names

Variables, functions, parameters and types have names. A tree that was built by hand may lack any
of them, so a name is optional.

* `Name`: a name or none.
* `Name.shown`: how messages write it.
-/

namespace PlcLang

/-- A name, or none at all. -/
abbrev Name := Option String

/-- The name in a message. -/
def Name.shown : Name → String
  | some text => text
  | none => "None"

end PlcLang
