import ShaderMerge.Table
import ShaderMerge.Text.Scan

/-!
# Property types

The type of a property as it is declared, and the kind of storage that its values take.
-/

namespace ShaderMerge

/-- The type of a property. -/
inductive PropertyType where
  | color
  | colorHDR
  | float
  | vector
  | int
  | texture2D
  | texture2DArray
  | texture3D
  | textureCube
  | textureCubeArray
  | unknown
deriving DecidableEq, Repr

namespace PropertyType

/-- The name of the type in messages. -/
def name : PropertyType → String
  | color => "Color"
  | colorHDR => "ColorHDR"
  | float => "Float"
  | vector => "Vector"
  | int => "Int"
  | texture2D => "Texture2D"
  | texture2DArray => "Texture2DArray"
  | texture3D => "Texture3D"
  | textureCube => "TextureCube"
  | textureCubeArray => "TextureCubeArray"
  | unknown => "Unknown"

/-- Whether values are textures. -/
def isTexture : PropertyType → Bool
  | texture2D | texture2DArray | texture3D | textureCube | textureCubeArray => true
  | _ => false

/-- Whether values are vectors. -/
def isVector : PropertyType → Bool
  | color | colorHDR | vector => true
  | _ => false

/-- Whether values are single numbers. -/
def isScalar : PropertyType → Bool
  | float | int => true
  | _ => false

end PropertyType

/-- How the values of a property are stored. -/
inductive PropertyKind where
  | float
  | int
  | vector
  | texture
  | textureArray
deriving DecidableEq, Repr

namespace PropertyKind

/-- The kinds in the order of the lists of a generated shader. -/
def all : List PropertyKind := [float, int, vector, texture, textureArray]

/-- The kind of a type word of a declaration; letter case does not count. -/
def ofTypeWord? (word : String) : Option PropertyKind :=
  match Text.lowerLetters word with
  | "float" | "range" => some float
  | "int" | "integer" => some int
  | "color" | "vector" => some vector
  | "2d" | "3d" | "cube" => some texture
  | "2darray" | "cubearray" => some textureArray
  | _ => none

end PropertyKind

/-- A property of a shader. -/
structure Property where
  /-- The name. -/
  name : String
  /-- The name shown to users. -/
  displayName : String
  /-- The type. -/
  type : PropertyType
  /-- The default value as an expression of shader code. -/
  default : String
  /-- Whether the property is tagged as a gamma value. -/
  isGamma : Bool
  /-- The commands outside of programs that use the property by name. -/
  sites : NameSet
deriving DecidableEq

/-- A property without tags and sites, shown by its own name. -/
def Property.plain (name : String) (type : PropertyType) (default : String) : Property :=
  ⟨name, name, type, default, false, ∅⟩

end ShaderMerge
