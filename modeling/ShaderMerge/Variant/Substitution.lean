import ShaderMerge.Shader.Model
import ShaderMerge.Variant.Options
import ShaderMerge.Variant.Registers
import ShaderMerge.Variant.Selection
import ShaderMerge.Variant.SlicedTexture

/-!
# What a variant puts in the place of properties

`Substitution.new` checks the options of a variant against the shader and decides for each
property how its value is found: in the registers of the mesh if it is animated on any mesh, else
by material if it has values by material, else as a constant.  A texture becomes slices besides.
-/

namespace ShaderMerge.Variant

/-- How the values of the properties of a variant are found. -/
structure Substitution where
  /-- The constants. -/
  statics : Table String Value
  /-- The properties selected by material. -/
  arrays : Table String Selection
  /-- The textures served from arrays, by name in ascending order. -/
  textures : List SlicedTexture
  /-- The animated properties. -/
  registers : Registers
deriving DecidableEq

namespace Substitution

/-! ## From options -/

/-- Check that the shader can serve the textures of the options from arrays. -/
def checkMacros (s : Shader) (o : Options) : Except VariantError Unit :=
  if !o.textures.isEmpty && s.hasTextureMacros then .error (.customDeclarations s.name)
  else .ok ()

/-- Check that the shader has the properties that the options give values for. -/
def checkNames (s : Shader) (o : Options) : Except VariantError Unit :=
  match (o.statics.keys ++ o.arrays.keys ++ o.textures.keys).find?
      (fun name => (s.property? name).isNone) with
  | some name => .error (.unknownProperty name)
  | none => .ok ()

/-- Check that the textures of the options are two-dimensional. -/
def checkTextures (s : Shader) (o : Options) : Except VariantError Unit :=
  match (o.textures.keys.filterMap s.property?).find? (·.type != .texture2D) with
  | some p => .error (.notSliceable p.name p.type)
  | none => .ok ()

/-- The texture of a name, with a slice for each material. -/
def slicedTexture (s : Shader) (name : String) (slices : List (Option UInt32)) :
    Except VariantError SlicedTexture :=
  let default := ((s.property? name).map (·.default)).getD "float4(0.5, 0.5, 0.5, 1.0)"
  match SlicedTexture.ofSlices? name default slices with
  | some texture => .ok texture
  | none => .error (.noValues name)

/-- The substitution that the options of a variant ask for. -/
def new (s : Shader) (o : Options) : Except VariantError Substitution := do
  if !s.isComplete then
    .error (.unreadShader s.name ((s.error?.map (·.message)).getD ""))
  else
    let _ ← o.materialCount
    checkMacros s o
    checkNames s o
    checkTextures s o
    -- An animated property has neither one value nor one by material.
    let registers ← Registers.allocate s o.animated o.meshes
    let arrays := (o.arrays.filter fun name _ => !registers.slots.contains name).filterMap
      fun _ values => Selection.ofValues? values
    let statics := o.statics.filter fun name _ =>
      !registers.slots.contains name && !arrays.contains name
    let textures ← o.textures.entries.mapM fun e => slicedTexture s e.1 e.2
    return { statics, arrays, textures, registers }

/-! ## Values that conditions of regions may use -/

/-- The number that every material has for a selected property, if it is the same one. -/
def sharedNumber? : Selection → Option Binary32
  | .uniform value => value.scalar?
  | _ => none

/-- The numbers that are the same for all materials and meshes. -/
def regionValues (t : Substitution) : Table String Binary32 :=
  (t.statics.filterMap fun _ value => value.scalar?).insertAll
    (t.arrays.filterMap fun _ selection => sharedNumber? selection).entries

/-! ## In commands -/

/-- A constant as a word of a command; a vector is none. -/
def commandWord? : Value → Option String
  | .float v => some (NumberLayout.plain.text v)
  | .int v => some (toString v.toInt)
  | .vector _ => none

/-- What takes the place of a property in a command. -/
def inCommand? (t : Substitution) (name : String) : Option String :=
  (t.statics.get? name).bind commandWord?

/-! ## In declarations -/

/-- The sliced texture of a name. -/
def texture? (t : Substitution) (name : String) : Option SlicedTexture :=
  t.textures.find? (·.name = name)

/-- Whether a line declares a sliced texture or its sampler. -/
def declaresTexture (t : Substitution) (line : String) : Bool :=
  t.textures.any (·.isDeclaration line)

/-- Whether a property is set at the start of each entry point. -/
def isAssigned (t : Substitution) (name : String) : Bool :=
  t.arrays.contains name || t.registers.slots.contains name

/-- The type and the name of a text that is just a type, a name and a semicolon. -/
def bareDeclaration? (cs : List Char) : Option (List Char × List Char) := do
  let (type, cs) ← Text.name? cs
  let cs ← Text.afterBlanks? cs
  let (name, cs) ← Text.name? cs
  if Text.skipBlanks cs = [';'] then some (type, name) else none

/-- The type and the name of a declaration without an initial value; `uniform` may stand in
front. -/
def declaration? (line : String) : Option (String × String) :=
  let cs := line.toList
  let found := (((Text.after? "uniform" cs).bind Text.afterBlanks?).bind bareDeclaration?).or
    (bareDeclaration? cs)
  found.map fun (type, name) => (String.ofList type, String.ofList name)

/-- The declaration that takes the place of the declaration of a property. -/
def declare? (t : Substitution) (type name : String) : Option String :=
  match t.statics.get? name with
  | some value => some ("static const " ++ type ++ " " ++ name ++ " = " ++ value.literal ++ ";")
  | none => if t.isAssigned name then some ("static " ++ type ++ " " ++ name ++ ";") else none

/-! ## In entry points -/

/-- The statement that sets a declared property. -/
def assignment? (t : Substitution) (name : String) : Option String :=
  let expression := (t.registers.valueExpression? name).or
    ((t.arrays.get? name).map fun selection => selection.expression name "materialID")
  expression.map fun e => name ++ " = " ++ e ++ ";"

/-- The statements that set the declared properties and the slices of the textures. -/
def assignments (t : Substitution) (declared : List String) : List String :=
  let registers :=
    if declared.any t.registers.slots.contains then t.registers.prologue "meshID" else []
  registers ++ declared.filterMap t.assignment?
    ++ t.textures.map (·.sliceAssignment "materialID")

end Substitution

end ShaderMerge.Variant
