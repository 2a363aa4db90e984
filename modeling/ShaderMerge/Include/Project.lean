import ShaderMerge.Table
import ShaderMerge.Text.Scan

/-!
# The files of a project

A project is a table of texts by their paths.  It stands for whatever the texts are read from, a
directory or a store in memory.  Reading a shader asks for the texts of finitely many paths, so what
any source of texts has to say about it is the table of the texts that are found there; a path that
the table does not have is one that cannot be read.
-/

namespace ShaderMerge

/-- The texts of a project by path. -/
abbrev Project := Table String String

namespace Project

/-- A line without a carriage return at its end. -/
def withoutReturn (cs : List Char) : List Char :=
  match cs.reverse with
  | '\r' :: front => front.reverse
  | _ => cs

/-- The lines of pieces between line feeds.  A carriage return in front of a line feed belongs
to the line end; the last piece has none, and is no line if it is empty. -/
def linesOfPieces : List (List Char) → List (List Char)
  | [] => []
  | [last] => if last.isEmpty then [] else [last]
  | piece :: pieces => withoutReturn piece :: linesOfPieces pieces

/-- The lines of a text. -/
def lines (text : String) : List String :=
  (linesOfPieces (Text.splitWhere (· == '\n') text.toList)).map String.ofList

/-- The lines of a file, if there is such a file. -/
def readLines? (p : Project) (path : String) : Option (List String) :=
  (p.get? path).map lines

/-- Why a file that is absent cannot be read. -/
def absentReason (path : String) : String := path ++ " not found in memory resolver"

end Project

end ShaderMerge
