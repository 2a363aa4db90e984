import ShaderMerge.Number.Decimal
import ShaderMerge.Property.Type
import ShaderMerge.Value

/-!
# Default values of properties

A declaration gives the default of a property as a number, as a tuple of up to four numbers, or
as the name of a placeholder texture.  `PropertyDefault.ofDeclaration?` turns it into the type of
the property and an expression of shader code; `PropertyDefault.components` reads the number or
vector of such an expression.
-/

namespace ShaderMerge.PropertyDefault

/-- Read a number, with blanks around it. -/
def number? (cs : List Char) : Option Binary32 := Binary32.ofText? (Text.trimmed cs)

/-- The text between a parenthesis at the start and one at the end. -/
def inParentheses? (cs : List Char) : Option (List Char) := do
  let inner ← Text.afterChar? '(' cs
  match inner.reverse with
  | ')' :: front => some front.reverse
  | _ => none

/-- Read a tuple of at most four numbers; missing ones are zero. -/
def tuple? (cs : List Char) : Option Vector4 := do
  let inner ← inParentheses? (Text.trimmed cs)
  let components ← (Text.splitWhere (· == ',') inner).mapM number?
  if 4 < components.length then none else some (Vector4.ofComponents components)

/-- The color of a placeholder texture; an unknown one is grey. -/
def placeholder (cs : List Char) : Vector4 :=
  let isQuote (c : Char) : Bool := c == '"'
  let bare := Text.dropEndWhile isQuote ((Text.trimmed cs).dropWhile isQuote)
  match Text.lowerLetters (String.ofList ((Text.words bare).headD [])) with
  | "white" => .splat .one
  | "black" => .zero
  | "bump" => ⟨.half, .half, .one, .one⟩
  | "red" => ⟨.one, .zero, .zero, .zero⟩
  | _ => .splat .half

/-- The texture type of a type word in lower case. -/
def textureType? (word : String) : Option PropertyType :=
  match word with
  | "2d" => some .texture2D
  | "2darray" => some .texture2DArray
  | "3d" => some .texture3D
  | "cube" => some .textureCube
  | "cubearray" => some .textureCubeArray
  | _ => none

/-- Whether a type word in lower case declares a float. -/
def isFloatWord (word : String) : Bool := word = "float" || word = "range"

/-- Whether a type word in lower case declares an integer. -/
def isIntWord (word : String) : Bool := word = "int" || word = "integer"

/-- The type of a property and its default, from the type word and the default text of its
declaration.  A number type with a tuple is a vector, and an unknown type word keeps its text. -/
def ofDeclaration? (typeWord : String) (text : List Char) (isHDR : Bool) :
    Option (PropertyType × String) :=
  let text := Text.trimmed text
  let word := Text.lowerLetters typeWord
  let vector := (tuple? text).map vectorLiteral
  if isFloatWord word || isIntWord word then
    if text.head? == some '(' then vector.map (.vector, ·)
    else
      (Binary32.ofText? text).map fun v =>
        if isFloatWord word then (.float, floatLiteral v) else (.int, toString v.toInt32.toInt)
  else if word = "color" then vector.map ((if isHDR then .colorHDR else .color), ·)
  else if word = "vector" then vector.map (.vector, ·)
  else
    match textureType? word with
    | some type => some (type, vectorLiteral (placeholder text))
    | none => some (.unknown, String.ofList text)

/-- The four components of a default expression: a vector expression by its numbers, anything
else as one number in all components.  What is no number counts as zero. -/
def components (expression : String) : Vector4 :=
  let text := Text.trimmed expression.toList
  let number (cs : List Char) : Binary32 := (number? cs).getD .zero
  let inner : Option (List Char) := do
    let rest ← Text.after? "float4(" text
    match rest.reverse with
    | ')' :: front => some front.reverse
    | _ => none
  match inner with
  | some inner => Vector4.ofComponents ((Text.splitWhere (· == ',') inner).map number)
  | none => .splat (number text)

end ShaderMerge.PropertyDefault
