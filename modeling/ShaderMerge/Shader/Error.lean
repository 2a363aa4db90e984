import ShaderMerge.Stage

/-!
# Why a shader cannot be read
-/

namespace ShaderMerge

/-- A construct that is recognised and refused. -/
inductive Unsupported where
  /-- A surface shader. -/
  | surfaceShader
  /-- A buffer of per-instance properties. -/
  | instancingBuffer
  /-- A pass file of the lilToon shaders. -/
  | lilToon
deriving DecidableEq, Repr

/-- The message of a refused construct. -/
def Unsupported.message : Unsupported → String
  | surfaceShader => "surface shaders are not supported"
  | instancingBuffer => "instancing buffers are not supported"
  | lilToon => "lilToon shaders are not supported"

/-- Why a shader cannot be read. -/
inductive ShaderError where
  /-- The file cannot be read, for a reason. -/
  | unreadable (path reason : String)
  /-- A string literal has no end. -/
  | openString (file : String) (line : Nat)
  /-- A block comment has no end. -/
  | openComment (file : String)
  /-- A line of the properties declares no property. -/
  | badProperty (line : String)
  /-- A function has a body but no proper signature. -/
  | badFunction (signature : String)
  /-- The braces outside the program blocks do not close. -/
  | unbalancedBraces (depth : Int)
  /-- A pass has no function for a stage that needs one. -/
  | missingEntryPoint (pass : Nat) (stage : Stage)
  /-- A pass names a function that is never defined. -/
  | undefinedEntryPoint (pass : Nat) (stage : Stage) (name : String)
  /-- The shader has a construct that is refused. -/
  | unsupported (construct : Unsupported)
  /-- The shared blocks of the shader replay one another for ever. -/
  | endlessWalk
deriving DecidableEq, Repr

/-- The message of an error. -/
def ShaderError.message : ShaderError → String
  | unreadable path reason => "failed to read shader " ++ path ++ ": " ++ reason
  | openString file line =>
    "unterminated string literal in " ++ file ++ " on line " ++ toString line
  | openComment file => "unterminated block comment in " ++ file
  | badProperty line => "malformed property declaration: " ++ line
  | badFunction signature => "malformed function declaration: " ++ signature
  | unbalancedBraces depth =>
    "unbalanced curly braces at end of shader (depth " ++ toString depth ++ ")"
  | missingEntryPoint pass stage =>
    "pass " ++ toString pass ++ " has no " ++ stage.name ++ " entry point"
  | undefinedEntryPoint pass stage name =>
    "pass " ++ toString pass ++ " binds " ++ stage.name ++ " function " ++ name
      ++ " which is never defined"
  | unsupported construct => construct.message
  | endlessWalk => "the shared blocks of the shader replay one another without end"

end ShaderMerge
