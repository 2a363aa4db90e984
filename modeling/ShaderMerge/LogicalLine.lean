import ShaderMerge.Directive
import ShaderMerge.Region.Comparison
import ShaderMerge.Shader.Error

/-!
# Logical lines

The raw lines of a file become logical lines in three steps.  `joinContinued` joins a line that
ends in a backslash to the next one.  `stripComments` takes the comments out of a joined line;
a block comment may go on over several lines, a string literal may not.  `Splitter` cuts what is
left into statements: a directive stays whole, a brace stands alone, and a statement ends behind
its semicolon or with its line.  A semicolon that follows a closing brace joins it to `};`.

`LogicalLine.ofRaw` puts the steps together for one file.
-/

namespace ShaderMerge.LogicalLine

/-! ## Continued lines -/

/-- A raw line without the line end that may still be on it. -/
def withoutLineEnd (cs : List Char) : List Char :=
  Text.dropEndWhile (fun c => c == '\r' || c == '\n') cs

/-- The text in front of the backslash with which a line goes on, if it does. -/
def continued? (cs : List Char) : Option (List Char) :=
  match (Text.skipBlanksEnd cs).reverse with
  | '\\' :: front => some front.reverse
  | _ => none

/-- Join every line that goes on to the next one, behind what is pending. -/
def joinContinuedFrom (pending : List Char) : List (List Char) → List (List Char)
  | [] => if pending.isEmpty then [] else [pending]
  | raw :: rest =>
    let line := withoutLineEnd raw
    match continued? line with
    | some front => joinContinuedFrom (pending ++ front) rest
    | none => (pending ++ line) :: joinContinuedFrom [] rest

/-- The joined lines of raw lines. -/
def joinContinued (raw : List (List Char)) : List (List Char) := joinContinuedFrom [] raw

/-! ## Comments -/

/-- Where a scan through a line stands. -/
inductive Mode where
  /-- In code. -/
  | code
  /-- In a string literal. -/
  | literal
  /-- In a block comment. -/
  | comment
deriving DecidableEq, Repr

/-- Take the comments out of a line that starts in a mode: what is left, with one space for
every block comment that ends, and the mode at the end of the line. -/
def stripComments : Mode → List Char → List Char × Mode
  | mode, [] => ([], mode)
  | .comment, '*' :: '/' :: rest =>
    let (left, mode) := stripComments .code rest
    (' ' :: left, mode)
  | .comment, _ :: rest => stripComments .comment rest
  | .literal, '\\' :: c :: rest =>
    let (left, mode) := stripComments .literal rest
    ('\\' :: c :: left, mode)
  | .literal, '"' :: rest =>
    let (left, mode) := stripComments .code rest
    ('"' :: left, mode)
  | .literal, c :: rest =>
    let (left, mode) := stripComments .literal rest
    (c :: left, mode)
  | .code, '/' :: '/' :: _ => ([], .code)
  | .code, '/' :: '*' :: rest => stripComments .comment rest
  | .code, '"' :: rest =>
    let (left, mode) := stripComments .literal rest
    ('"' :: left, mode)
  | .code, c :: rest =>
    let (left, mode) := stripComments .code rest
    (c :: left, mode)

/-- A line whose comment marks a region becomes the directive of the region. -/
def promoteRegion (cs : List Char) : List Char :=
  match Text.after? "//ifex" cs with
  | some rest => "#ifex".toList ++ rest
  | none => if (Text.after? "//endex" cs).isSome then "#endex".toList else cs

/-! ## Statements -/

/-- The cutting of a line into statements, between two characters. -/
structure Splitter where
  /-- The characters of the statement so far, latest first. -/
  current : List Char
  /-- The number of open parentheses, below zero when more have closed. -/
  depth : Int
  /-- Whether the place is in a string literal. -/
  quoted : Bool
  /-- Whether the character is escaped. -/
  escaped : Bool
  /-- The logical lines so far, latest first. -/
  done : List String

namespace Splitter

/-- A splitter at the start of a line, behind earlier logical lines. -/
def start (done : List String) : Splitter := ⟨[], 0, false, false, done⟩

/-- End the statement; one without text is no logical line. -/
def flush (s : Splitter) : Splitter :=
  let text := Text.trimmed s.current.reverse
  { s with
    current := []
    done := if text.isEmpty then s.done else String.ofList text :: s.done }

/-- Take a character into the statement. -/
def take (s : Splitter) (c : Char) : Splitter := { s with current := c :: s.current }

/-- A semicolon outside parentheses: it ends the statement, or joins the closing brace right
before it. -/
def semicolon (s : Splitter) : Splitter :=
  if (Text.trimmed s.current).isEmpty && s.done.head? == some "\x7d" then
    { s with current := [], done := "\x7d;" :: s.done.tail }
  else (s.take ';').flush

/-- Read one character. -/
def step (s : Splitter) (c : Char) : Splitter :=
  -- In a literal only its end counts, and an escaped quote is not its end.
  if s.quoted then
    let s := s.take c
    if s.escaped then { s with escaped := false }
    else if c = '\\' then { s with escaped := true }
    else if c = '"' then { s with quoted := false }
    else s
  else if c = '"' then { s.take c with quoted := true }
  else if c = '(' then { s.take c with depth := s.depth + 1 }
  else if c = ')' then { s.take c with depth := s.depth - 1 }
  else if 0 < s.depth then s.take c
  else if c = ';' then s.semicolon
  else if c = '{' || c = '}' then
    let s := s.flush
    { s with done := String.ofList [c] :: s.done }
  else s.take c

/-- Cut a line without comments, behind earlier logical lines that are given latest first. -/
def split (done : List String) (cs : List Char) : List String :=
  (cs.foldl step (start done)).flush.done

end Splitter

/-! ## Files -/

/-- The logical lines of a file. -/
structure Normalized where
  /-- The logical lines. -/
  lines : List String
  /-- The names compared in the conditions of regions, in order and with repeats. -/
  regionNames : List String
deriving DecidableEq, Repr

/-- The state between two joined lines of a file. -/
structure Progress where
  /-- Whether a block comment is open. -/
  inComment : Bool
  /-- The logical lines so far, latest first. -/
  done : List String
  /-- The names compared in the conditions of regions so far. -/
  regionNames : List String

/-- Read one joined line; `none` if a string literal is left open on it. -/
def Progress.line? (p : Progress) (cs : List Char) : Option Progress :=
  -- Only a line that starts in code can mark a region.
  let (left, mode) :=
    if p.inComment then stripComments .comment cs
    else stripComments .code (promoteRegion (Text.skipBlanks cs))
  if mode = .literal then none
  else
    let text := Text.trimmed left
    let inComment := mode = .comment
    match text with
    | [] => some { p with inComment }
    | '#' :: _ =>
      let names := ((Text.after? "#ifex" text).map Region.comparedNames).getD []
      some ⟨inComment, String.ofList text :: p.done, p.regionNames ++ names⟩
    | _ => some { p with inComment, done := Splitter.split p.done text }

/-- Read the joined lines from a number on. -/
def normalizeFrom (file : String) (p : Progress) (number : Nat) :
    List (List Char) → Except ShaderError Normalized
  | [] =>
    if p.inComment then .error (.openComment file)
    else .ok ⟨p.done.reverse, p.regionNames⟩
  | line :: rest =>
    match p.line? line with
    | none => .error (.openString file number)
    | some p => normalizeFrom file p (number + 1) rest

/-- The logical lines of the raw lines of a file.  Errors name the file, and the line by its
number among the joined lines. -/
def ofRaw (file : String) (raw : List String) : Except ShaderError Normalized :=
  normalizeFrom file ⟨false, [], []⟩ 1 (joinContinued (raw.map String.toList))

end ShaderMerge.LogicalLine
