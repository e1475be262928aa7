/-!
# File names

* `Path.shown`: a file name without empty parts and without parts that stay where they are.
* `Path.hasSuffix`: the last part ends in the given suffix and has something before it.
-/

namespace PlcLang.Path

/-- The characters up to the first slash, then those up to the next, and so on. -/
def partsOf : List Char → List (List Char)
  | [] => [[]]
  | c :: cs =>
    match partsOf cs with
    | p :: ps => if c = '/' then [] :: p :: ps else (c :: p) :: ps
    | [] => [[c]]

/-- The parts of a file name that lead somewhere. -/
def parts (path : String) : List String :=
  ((partsOf path.toList).map String.ofList).filter fun p => p != "" && p != "."

/-- The slashes at the beginning; exactly two have a meaning of their own. -/
def root (path : String) : String :=
  match path.toList with
  | '/' :: '/' :: '/' :: _ => "/"
  | '/' :: '/' :: _ => "//"
  | '/' :: _ => "/"
  | _ => ""

/-- A file name as it is shown and opened. -/
def shown (path : String) : String :=
  let text := root path ++ "/".intercalate (parts path)
  if text = "" then "." else text

/-- The last part of the file name ends in `suffix` and has something before it. -/
def hasSuffix (suffix path : String) : Bool :=
  let name := ((parts path).getLast?.getD "").toList
  suffix.toList.isSuffixOf name && suffix.length < name.length

end PlcLang.Path
