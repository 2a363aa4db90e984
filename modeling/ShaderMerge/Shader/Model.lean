import ShaderMerge.Include.Sources
import ShaderMerge.Property.Type
import ShaderMerge.Signature.Function

/-!
# The model of a shader

What is known of a shader once it has been read: its properties, its passes with the functions
of their stages, and what forbids merging.  A shader that cannot be read has a model too, which
holds its path and the error.
-/

namespace ShaderMerge

/-- A render pass, which is one program block. -/
structure Pass where
  /-- The functions of the stages. -/
  entryPoints : PerStage (Option Signature)
  /-- The keywords that select features of the pass. -/
  keywords : NameSet
  /-- The light mode, if one is given. -/
  lightMode : Option String
deriving DecidableEq

namespace Pass

/-- A pass without functions. -/
def empty : Pass := ⟨.const none, ∅, none⟩

/-- Whether a stage of the tessellation has a function. -/
def hasTessellation (p : Pass) : Bool :=
  p.entryPoints.hull.isSome || p.entryPoints.domain.isSome

end Pass

/-- How the reading of a shader ended. -/
inductive ReadStatus where
  /-- The shader has not been read. -/
  | unread
  /-- The shader has been read. -/
  | complete
  /-- The shader cannot be read. -/
  | failed (error : ShaderError)
deriving DecidableEq

/-- The model of a shader. -/
structure Shader where
  /-- The name that the shader gives itself. -/
  name : String
  /-- The path of its file. -/
  path : String
  /-- How the reading ended. -/
  status : ReadStatus
  /-- The files of the shader. -/
  sources : Include.Sources
  /-- The properties in the order of their declarations. -/
  properties : List Property
  /-- The place of the last declaration of each property. -/
  places : Table String Nat
  /-- The passes in the order of their program blocks. -/
  passes : List Pass
  /-- The functions by name. -/
  functions : Table String Signature
  /-- The keywords that select features of any pass. -/
  keywords : NameSet
  /-- Whether a pass binds a stage of the tessellation. -/
  hasTessellation : Bool
  /-- Whether a tag forbids batching. -/
  disablesBatching : Bool
  /-- Whether macros of the shader declare textures. -/
  hasTextureMacros : Bool
  /-- Whether the braces of a program block do not close. -/
  hasMismatchedBraces : Bool
  /-- The number of includes that were refused as repeats. -/
  repeatedIncludes : Nat
deriving DecidableEq

namespace Shader

/-- A shader of which nothing has been read. -/
def empty : Shader where
  name := ""
  path := ""
  status := .unread
  sources := default
  properties := []
  places := ∅
  passes := []
  functions := ∅
  keywords := ∅
  hasTessellation := false
  disablesBatching := false
  hasTextureMacros := false
  hasMismatchedBraces := false
  repeatedIncludes := 0

/-- A shader that cannot be read. -/
def failed (path : String) (error : ShaderError) : Shader :=
  { empty with name := Include.fileStem path, path, status := .failed error }

/-- Whether the shader has been read. -/
def isComplete (s : Shader) : Bool := s.status = .complete

/-- Why the shader cannot be read. -/
def error? (s : Shader) : Option ShaderError :=
  match s.status with
  | .failed error => some error
  | _ => none

/-- The property of a name; of several declarations the last counts. -/
def property? (s : Shader) (name : String) : Option Property :=
  (s.places.get? name).bind (s.properties[·]?)

/-- Declare one more property. -/
def insertProperty (s : Shader) (p : Property) : Shader :=
  { s with
    properties := s.properties ++ [p]
    places := s.places.insert p.name s.properties.length }

/-- Note that a command uses a property by name. -/
def addSite (s : Shader) (name site : String) : Shader :=
  match s.places.get? name with
  | none => s
  | some place =>
    { s with
      properties := s.properties.modify place fun p => { p with sites := p.sites.add site } }

/-- Whether meshes and materials that use the shader may be merged. -/
def canMerge (s : Shader) : Bool :=
  s.isComplete && !s.hasTessellation && !s.disablesBatching && !s.hasMismatchedBraces

/-- Whether textures of the shader may become slices of texture arrays. -/
def canMergeTextures (s : Shader) : Bool := s.canMerge && !s.hasTextureMacros

/-- Whether materials must agree on a property to be merged as they are: textures, and what a
command or the condition of a region uses. -/
def mustAgree (s : Shader) (p : Property) : Bool :=
  p.type.isTexture || !p.sites.isEmpty || s.sources.regionNames.contains p.name

/-- The properties on which materials must agree to be merged as they are. -/
def namesToAgree (s : Shader) : NameSet :=
  NameSet.ofNames ((s.properties.filter s.mustAgree).map (·.name))

end Shader

end ShaderMerge
