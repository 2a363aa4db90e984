import ShaderMerge.Property.Type
import ShaderMerge.Stage

/-!
# Why a variant cannot be made
-/

namespace ShaderMerge

/-- Why the entry point of a stage cannot take the packed number. -/
inductive SignatureFault where
  /-- The vertex stage returns nothing that a geometry stage could get. -/
  | voidVertex
  /-- The geometry stage has no stream to write to. -/
  | noStream
  /-- The geometry stage has nothing to carry the number in. -/
  | noCarrier
  /-- The geometry stage does not take what the vertex stage returns. -/
  | noInputArray
  /-- The input array is declared in no line of the signature. -/
  | inputNotLocated
  /-- The stream is declared in no line of the signature. -/
  | streamNotLocated
deriving DecidableEq, Repr

/-- The message of a fault. -/
def SignatureFault.message : SignatureFault → String
  | voidVertex => "a void vertex stage cannot feed a geometry stage the packed ID"
  | noStream => "no output stream parameter"
  | noCarrier => "no carrier for the packed ID"
  | noInputArray => "no input array of the vertex output type"
  | inputNotLocated => "cannot locate the input array"
  | streamNotLocated => "cannot locate the output stream"

/-- Why a variant cannot be made. -/
inductive VariantError where
  /-- The shader could not be read. -/
  | unreadShader (name message : String)
  /-- A list of values has not one value for each material. -/
  | countMismatch (property : String) (count expected : Nat)
  /-- There are more materials than can be told apart. -/
  | tooManyMaterials (count max : Nat)
  /-- A list of values is empty. -/
  | noValues (property : String)
  /-- The shader has no such property. -/
  | unknownProperty (property : String)
  /-- Values of the type cannot be animated. -/
  | notAnimatable (property : String) (type : PropertyType)
  /-- Textures of the type cannot be slices of an array. -/
  | notSliceable (property : String) (type : PropertyType)
  /-- The shader declares textures by macros of its own. -/
  | customDeclarations (shader : String)
  /-- The shader uses tessellation, through which the packed number cannot pass. -/
  | tessellated (shader : String)
  /-- The braces of a program block do not close. -/
  | unbalancedBraces (block : Nat) (depth : Int)
  /-- The entry point of a stage is not defined in the program block. -/
  | unresolvedEntryPoint (block : Nat) (stage : Stage)
  /-- The entry point of a stage cannot take the packed number. -/
  | unsupportedSignature (stage : Stage) (name : String) (fault : SignatureFault)
  /-- The signature of an entry point cannot be read. -/
  | badSignature (text : String)
  /-- The shared blocks of the shader replay one another for ever. -/
  | endlessWalk
deriving DecidableEq, Repr

/-- The message of an error. -/
def VariantError.message : VariantError → String
  | unreadShader name message => "shader " ++ name ++ " was not parsed correctly: " ++ message
  | countMismatch property count expected =>
    "per-material value count mismatch for " ++ property ++ ": " ++ toString count ++ " != "
      ++ toString expected
  | tooManyMaterials count max =>
    "too many source materials: " ++ toString count ++ " > " ++ toString max
  | noValues property => "empty per-material value list for " ++ property
  | unknownProperty property => "unknown property " ++ property
  | notAnimatable property type =>
    "property " ++ property ++ " of type " ++ type.name ++ " cannot be animated"
  | notSliceable property type =>
    "property " ++ property ++ " of type " ++ type.name
      ++ " cannot be merged into a texture array"
  | customDeclarations shader =>
    "texture merging is disabled for shader " ++ shader ++ ": custom texture declaration macros"
  | tessellated shader =>
    "shader " ++ shader ++ " uses tessellation, which cannot carry the packed ID"
  | unbalancedBraces block depth =>
    "unbalanced curly braces at the end of program block " ++ toString block ++ " (depth "
      ++ toString depth ++ ")"
  | unresolvedEntryPoint block stage =>
    "program block " ++ toString block ++ " has no resolvable " ++ stage.name ++ " entry point"
  | unsupportedSignature stage name fault =>
    "cannot rewrite " ++ stage.name ++ " entry point " ++ name ++ ": " ++ fault.message
  | badSignature text => text
  | endlessWalk => "the shared blocks of the shader replay one another without end"

end ShaderMerge
