import ShaderMerge.Signature.Brackets
import ShaderMerge.Text.Word
import ShaderMerge.Variant.Carrier

/-!
# Editing the body of an entry point

In the body of an entry point whose output is wrapped, every line that hands an output over is
edited: `return x;` in a vertex stage, and `stream.Append(x)` in a geometry stage.  `BodyEdit.apply`
edits one line.
-/

namespace ShaderMerge.Variant

/-- What is edited in the lines of a body. -/
inductive BodyEdit where
  /-- Nothing. -/
  | keep
  /-- The value of each return statement is wrapped. -/
  | wrapReturn
  /-- The argument of each call that appends to the stream is wrapped. -/
  | wrapAppend (stream : String)
deriving DecidableEq, Repr

namespace BodyEdit

/-- The value in front of the semicolon that ends a text; it is not empty and has no line feed. -/
def closedValue? (cs : List Char) : Option (List Char) :=
  match cs.reverse with
  | ';' :: value =>
    if value.isEmpty || value.contains '\n' then none else some value.reverse
  | _ => none

/-- Blanks, as many as possible but at least one, and the value behind them. -/
def blanksAndValue? : List Char → Option (List Char × List Char)
  | [] => none
  | c :: rest =>
    if Text.isBlank c then
      match blanksAndValue? rest with
      | some (blanks, value) => some (c :: blanks, value)
      | none => (closedValue? rest).map ([c], ·)
    else none

/-- A text cut in front of the value that its first return statement hands over, when `before`
is the character in front of the text.  The statement must end the text. -/
def returnedValue? (before : Option Char) : List Char → Option (List Char × List Char)
  | [] => none
  | c :: rest =>
    let value :=
      if Text.isBoundary before (some c) then
        (Text.after? "return" (c :: rest)).bind blanksAndValue?
      else none
    match value with
    | some (blanks, value) => some ("return".toList ++ blanks, value)
    | none =>
      if c = '\n' then none
      else (returnedValue? (some c) rest).map fun (front, value) => (c :: front, value)

/-- A value wrapped by a carrier, as an expression. -/
def wrapped (role : CarrierRole) (value : List Char) : List Char :=
  role.wrapper.toList ++ '(' :: value ++ ", optimizerPackedID)".toList

/-- A line with the value of its return statement wrapped. -/
def wrapReturnIn (line : List Char) : List Char :=
  match returnedValue? none line with
  | some (front, value) => front ++ wrapped .vertex value ++ [';']
  | none => line

/-- A line with the argument of its first call that appends to the stream wrapped. -/
def wrapAppendIn (stream : String) (line : List Char) : List Char :=
  let call := (stream ++ ".Append(").toList
  match Text.splitAtFirst? call line with
  | none => line
  | some (before, rest) =>
    match Signature.closing? 0 rest with
    | none => line
    | some (argument, after) => before ++ call ++ wrapped .geometry argument ++ ')' :: after

/-- Edit a line. -/
def apply (edit : BodyEdit) (line : String) : String :=
  match edit with
  | keep => line
  | wrapReturn => String.ofList (wrapReturnIn line.toList)
  | wrapAppend stream => String.ofList (wrapAppendIn stream line.toList)

end BodyEdit

end ShaderMerge.Variant
