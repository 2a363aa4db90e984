import ShaderMerge.Text.Scan

/-!
# Directive lines

A directive line starts with `#`.  Behind it, perhaps after blanks, stands a keyword, which may
be empty, and then the rest of the line.
-/

namespace ShaderMerge

/-- The parts of a directive line. -/
structure Directive where
  /-- The word behind the number sign. -/
  keyword : String
  /-- What follows the keyword, blanks included. -/
  rest : String
deriving DecidableEq, Repr

namespace Directive

/-- Whether a line is a directive line. -/
def isMarked (line : String) : Bool :=
  line.toList.head? == some '#'

/-- The parts of a line, if it is a directive line. -/
def ofLine? (line : String) : Option Directive :=
  match line.toList with
  | '#' :: cs =>
    let body := Text.skipBlanks cs
    some
      { keyword := String.ofList (body.takeWhile Text.isNameChar)
        rest := String.ofList (body.dropWhile Text.isNameChar) }
  | _ => none

/-- A line that includes a file. -/
def includeLine (file : String) : String :=
  "#include \"" ++ file ++ "\""

end Directive

end ShaderMerge
