import ShaderMerge.Signature.Brackets

/-!
# Parameters

A parameter is declared by modifiers, a type, a name with an optional array size, an optional
semantic behind a colon and an optional default behind an equals sign.
-/

namespace ShaderMerge

/-- A parameter of a function. -/
structure Parameter where
  /-- The type, its words joined by single spaces. -/
  type : String
  /-- The name. -/
  name : String
  /-- The semantic, if one is given. -/
  semantic : Option String
  /-- The text between the array brackets, if there are any. -/
  arraySize : Option String
  /-- The modifiers in order. -/
  modifiers : List String
  /-- The default value, if one is given. -/
  default : Option String
deriving DecidableEq, Repr

namespace Parameter

/-- The words that may stand in front of the type. -/
def modifierWords : List String :=
  ["in", "out", "inout", "point", "line", "triangle", "lineadj", "triangleadj", "precise",
   "const", "uniform", "centroid", "linear", "sample", "nointerpolation", "noperspective"]

/-- Whether the function reads the argument. -/
def isInput (p : Parameter) : Bool := !p.modifiers.contains "out"

/-- Whether the function writes the argument. -/
def isOutput (p : Parameter) : Bool := p.modifiers.contains "out" || p.modifiers.contains "inout"

/-- Words joined by single spaces. -/
def joinWords (words : List (List Char)) : List Char := [' '].intercalate words

/-- The name and the array size of a declarator. -/
def declarator (cs : List Char) : List Char × Option (List Char) :=
  match cs.dropWhile (· != '[') with
  | [] => (cs, none)
  | _ :: size =>
    (cs.takeWhile (· != '['), some (Text.trimmed (Text.dropEndWhile (· == ']') size)))

/-- Read the declaration of a parameter. -/
def ofText? (cs : List Char) : Option Parameter := do
  let (declaration, default) := Signature.cutTop '=' cs
  let (declaration, semantic) := Signature.cutTop ':' declaration
  let words := Text.words declaration
  let isModifier (word : List Char) : Bool := modifierWords.contains (String.ofList word)
  let modifiers := words.takeWhile isModifier
  let rest := words.dropWhile isModifier
  let last ← rest.getLast?
  let (name, size) := declarator last
  if rest.length < 2 || name.isEmpty then none
  return {
    type := String.ofList (joinWords rest.dropLast)
    name := String.ofList name
    semantic := semantic.map fun s => String.ofList (Text.trimmed s)
    arraySize := size.map String.ofList
    modifiers := modifiers.map String.ofList
    default := default.map fun d => String.ofList (Text.trimmed d) }

end Parameter

end ShaderMerge
