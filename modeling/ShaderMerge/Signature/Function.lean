import ShaderMerge.Signature.Header
import ShaderMerge.Signature.Parameter

/-!
# Function signatures

`Signature.ofText?` reads the text of a signature, from the return type up to where the body
starts.
-/

namespace ShaderMerge

/-- The signature of a function. -/
structure Signature where
  /-- The name of the function. -/
  name : String
  /-- The return type. -/
  returnType : String
  /-- The semantic of the returned value, if one is given. -/
  returnSemantic : Option String
  /-- The parameters in order. -/
  parameters : List Parameter
  /-- The logical lines of the signature as written, with the directives among them. -/
  lines : List String
deriving DecidableEq, Repr

namespace Signature

/-- The semantic behind the parameter list: behind a colon, without semicolons at the end. -/
def returnSemantic? (after : List Char) : Option String := do
  let cs ← Text.afterChar? ':'
    (Text.trimmed (Text.dropEndWhile (· == ';') (Text.trimmed after)))
  let semantic := Text.trimmed cs
  if semantic.isEmpty then none else some (String.ofList semantic)

/-- The parameters between the parentheses; nothing and `void` are an empty list. -/
def parameters? (inner : List Char) : Option (List Parameter) :=
  let inner := Text.trimmed inner
  if inner.isEmpty || inner = "void".toList then some []
  else (splitTop ',' inner).mapM Parameter.ofText?

/-- Read a signature that was written on the given lines. -/
def ofText? (text : List Char) (lines : List String) : Option Signature := do
  let header ← Header.ofText? text
  let (inner, after) ← closing? 0 header.rest
  let parameters ← parameters? inner
  return {
    name := String.ofList header.name
    returnType := String.ofList header.returnType
    returnSemantic := returnSemantic? after
    parameters
    lines }

end Signature

end ShaderMerge
