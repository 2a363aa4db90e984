import ShaderMerge.ContentHash
import ShaderMerge.Property.Type
import ShaderMerge.Shader.Model
import ShaderMerge.Variant.Registers

/-!
# Generated shaders

A variant consists of a main file and of the chunks that it includes.  The name of each file ends
in the hash of its content, so that equal content has equal names and a change of content changes
the name.
-/

namespace ShaderMerge.Variant

/-- A file of a variant. -/
structure GeneratedFile where
  /-- The name of the file. -/
  name : String
  /-- The lines of the file. -/
  lines : List String
deriving DecidableEq, Repr

/-- The text of a file: a line feed stands between two lines and at the end. -/
def GeneratedFile.text (f : GeneratedFile) : String := String.intercalate "\n" f.lines ++ "\n"

/-- The name of a chunk with lines from the file of a stem. -/
def chunkName (stem : String) (hash : UInt64) : String :=
  stem ++ "_" ++ ContentHash.text hash ++ ".cginc"

/-- A name with every character that may be refused in file names replaced: ASCII letters and
digits, hyphens and low lines stay. -/
def safeFileName (name : String) : String :=
  String.ofList (name.toList.map fun c =>
    if c.isAlphanum || c == '-' || c == '_' then c else '_')

/-- A generated variant of a shader. -/
structure GeneratedShader where
  /-- The name that the variant gives itself. -/
  name : String
  /-- The hash of the content of the main file. -/
  hash : UInt64
  /-- The main file. -/
  main : GeneratedFile
  /-- The files that the main file includes. -/
  chunks : List GeneratedFile
  /-- The properties of the variant with their kinds, in the order of their declarations. -/
  properties : List (PropertyKind × String)
  /-- The registers of the animated properties. -/
  registers : Registers
  /-- What could not be decided, and how many lines were left out. -/
  diagnostics : List String
  /-- The shader of which this is a variant. -/
  source : Shader

namespace GeneratedShader

/-- The files, the main file in front. -/
def files (g : GeneratedShader) : List GeneratedFile := g.main :: g.chunks

/-- The file of a name. -/
def file? (g : GeneratedShader) (name : String) : Option GeneratedFile :=
  g.files.find? (·.name = name)

/-- The properties of a kind. -/
def namesOf (g : GeneratedShader) (kind : PropertyKind) : List String :=
  (g.properties.filter (·.1 = kind)).map (·.2)

/-- The kind of a property; of several the first one in the order of the kinds. -/
def kind? (g : GeneratedShader) (name : String) : Option PropertyKind :=
  PropertyKind.all.find? fun kind => (g.namesOf kind).contains name

end GeneratedShader

end ShaderMerge.Variant
