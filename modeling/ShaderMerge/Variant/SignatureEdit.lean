import ShaderMerge.Directive
import ShaderMerge.Signature.Header
import ShaderMerge.Signature.Brackets
import ShaderMerge.Text.Word

/-!
# Editing a signature

A signature may be spread over several lines, with directives between them.  The edits here
change the text of its lines in place: they add a parameter at either end, replace a parameter,
the return type or the vertices of a stream, and take the semantic of the returned value away.
Directives are never looked into.  An edit whose place is not found gives `none`, or changes
nothing where that does no harm.
-/

namespace ShaderMerge.Variant.SignatureEdit

open Signature (Header closing? parenBalance)

/-! ## The parenthesis that closes the parameters -/

/-- Lines cut around a parenthesis. -/
structure Cut where
  /-- The lines in front of the line of the parenthesis. -/
  above : List String
  /-- The text in front of the parenthesis. -/
  before : List Char
  /-- The text behind the parenthesis. -/
  after : List Char
  /-- The lines behind the line of the parenthesis. -/
  below : List String
deriving DecidableEq, Repr

namespace Cut

/-- The lines that were cut. -/
def lines (c : Cut) : List String :=
  c.above ++ String.ofList (c.before ++ ')' :: c.after) :: c.below

/-- The cut with one more line in front. -/
def addAbove (line : String) (c : Cut) : Cut := { c with above := line :: c.above }

/-- Cut lines around the parenthesis that closes the one opened before them, when `depth` more
are open. -/
def ofLines? (depth : Nat) : List String → Option Cut
  | [] => none
  | line :: rest =>
    if Directive.isMarked line then (ofLines? depth rest).map (addAbove line)
    else
      match closing? depth line.toList with
      | some (before, after) => some ⟨[], before, after, rest⟩
      | none =>
        -- None of the parentheses of this line closes the one that is looked for.
        let depth := (depth + parenBalance line.toList).toNat
        (ofLines? depth rest).map (addAbove line)

/-- Cut a signature around the parenthesis that closes its parameters. -/
def ofSignature? : List String → Option Cut
  | [] => none
  | first :: rest =>
    (Header.ofText? first.toList).bind fun header =>
      match closing? 0 header.rest with
      | some (before, after) => some ⟨[], header.front ++ before, after, rest⟩
      | none => (ofLines? (parenBalance header.rest).toNat rest).map (addAbove first)

end Cut

/-! ## Edits at the header and at the closing parenthesis -/

/-- Put a parameter in front of the others. -/
def prependParameter? (parameter : String) (hasOthers : Bool) : List String → Option (List String)
  | [] => none
  | first :: rest =>
    (Header.ofText? first.toList).map fun header =>
      let comma := if hasOthers then ", " else ""
      String.ofList (header.front ++ parameter.toList ++ comma.toList ++ header.rest) :: rest

/-- Put a parameter behind the others. -/
def appendParameter (parameter : String) (hasOthers : Bool) (lines : List String) :
    List String :=
  match Cut.ofSignature? lines with
  | none => lines
  | some cut =>
    let comma := if hasOthers then ", " else ""
    { cut with before := cut.before ++ comma.toList ++ parameter.toList }.lines

/-- Whether a text starts with a colon, behind blanks. -/
def startsWithColon (cs : List Char) : Bool := (Text.skipBlanks cs).head? == some ':'

/-- Take away the semantic of the returned value, on the line of the parenthesis or on the next
one. -/
def removeReturnSemantic (lines : List String) : List String :=
  match Cut.ofSignature? lines with
  | none => lines
  | some cut =>
    if startsWithColon cut.after then { cut with after := [] }.lines
    else
      match cut.below with
      | [] => lines
      | next :: below =>
        if startsWithColon next.toList then { cut with below }.lines else lines

/-- Replace the return type. -/
def replaceReturnType (type : String) : List String → List String
  | [] => []
  | first :: rest =>
    match Header.ofText? first.toList with
    | some header => String.ofList { header with returnType := type.toList }.text :: rest
    | none => first :: rest

/-! ## Edits at a place that is searched for -/

/-- Edit the first line that is no directive and has the place to edit. -/
def editFirst? (edit : List Char → Option (List Char)) : List String → Option (List String)
  | [] => none
  | line :: rest =>
    match (if Directive.isMarked line then none else edit line.toList) with
    | some edited => some (String.ofList edited :: rest)
    | none => (editFirst? edit rest).map (line :: ·)

/-- The text behind a type and a name that start a text as whole words, when `before` is the
character in front of it. -/
def afterDeclared? (type name : String) (before : Option Char) (cs : List Char) :
    Option (List Char) := do
  let rest ← Text.after? type cs
  let rest ← Text.afterBlanks? rest
  let rest ← Text.after? name rest
  if Text.isBoundary before type.toList.head?
      && Text.isBoundary name.toList.getLast? rest.head? then some rest
  else none

/-- Replace the first place where a type and a name stand as whole words, when `before` is the
character in front of the text. -/
def replaceDeclared? (type name replacement : String) (before : Option Char) :
    List Char → Option (List Char)
  | [] => none
  | c :: rest =>
    match afterDeclared? type name before (c :: rest) with
    | some after => some (replacement.toList ++ after)
    | none => (replaceDeclared? type name replacement (some c) rest).map (c :: ·)

/-- Replace the type and the name of a parameter. -/
def replaceParameter? (type name replacement : String) (lines : List String) :
    Option (List String) :=
  editFirst? (replaceDeclared? type name replacement none) lines

/-- A text that starts with a stream of a vertex type, with another type in its place. -/
def withStreamVertex? (vertex replacement : String) (cs : List Char) : Option (List Char) := do
  let rest ← Text.after? "Stream" cs
  let inner ← Text.afterChar? '<' (Text.skipBlanks rest)
  let after ← Text.after? vertex (Text.skipBlanks inner)
  let _ ← Text.afterChar? '>' (Text.skipBlanks after)
  return "Stream".toList ++ rest.takeWhile Text.isBlank ++ '<' :: inner.takeWhile Text.isBlank
    ++ replacement.toList ++ after

/-- Replace the vertices of the first stream of a vertex type. -/
def replaceVertexIn? (vertex replacement : String) : List Char → Option (List Char)
  | [] => none
  | c :: rest =>
    match withStreamVertex? vertex replacement (c :: rest) with
    | some edited => some edited
    | none => (replaceVertexIn? vertex replacement rest).map (c :: ·)

/-- Replace the type of the vertices of a stream. -/
def replaceStreamVertex? (vertex replacement : String) (lines : List String) :
    Option (List String) :=
  editFirst? (replaceVertexIn? vertex replacement) lines

/-! ## The empty list of parameters -/

/-- The text behind an explicitly empty list of parameters, as in `(void)`. -/
def afterVoidList? (cs : List Char) : Option (List Char) := do
  let cs ← Text.afterChar? '(' cs
  let cs ← Text.after? "void" (Text.skipBlanks cs)
  Text.afterChar? ')' (Text.skipBlanks cs)

/-- Take `void` out of the first list of parameters that holds nothing else. -/
def clearVoidIn : List Char → List Char
  | [] => []
  | c :: rest =>
    match afterVoidList? (c :: rest) with
    | some after => '(' :: ')' :: after
    | none => c :: clearVoidIn rest

/-- Take `void` out of the empty list of parameters of the first line. -/
def clearVoid : List String → List String
  | [] => []
  | first :: rest => String.ofList (clearVoidIn first.toList) :: rest

/-! ## Small laws -/

theorem lines_of_ofLines? {depth : Nat} {lines : List String} {cut : Cut}
    (h : Cut.ofLines? depth lines = some cut) : cut.lines = lines := by
  induction lines generalizing depth cut with
  | nil => simp [Cut.ofLines?] at h
  | cons line rest ih =>
    simp only [Cut.ofLines?] at h
    split at h
    · obtain ⟨c, hc, rfl⟩ := Option.map_eq_some_iff.1 h
      simpa [Cut.lines, Cut.addAbove] using ih hc
    · split at h
      · rename_i before after hclose
        cases h
        simp [Cut.lines, Signature.append_of_closing? hclose]
      · obtain ⟨c, hc, rfl⟩ := Option.map_eq_some_iff.1 h
        simpa [Cut.lines, Cut.addAbove] using ih hc

end ShaderMerge.Variant.SignatureEdit
