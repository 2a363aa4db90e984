import ShaderMerge.Text.Scan
import ShaderMerge.Variant.Selection

/-!
# Textures served from a texture array

A `SlicedTexture` stands for a texture whose images are slices of a texture array, one for each
material.  `declarations` are the lines that take the place of the texture: the array, a type
with the functions of a texture that reads one slice, an instance of it, and a macro that gives
the instance the name of the texture.  A material without the texture has slice `-1` and gets the
default color.
-/

namespace ShaderMerge.Variant

/-- A texture that is served from the slices of an array. -/
structure SlicedTexture where
  /-- The name of the texture. -/
  name : String
  /-- The color of materials without the texture, as an expression. -/
  default : String
  /-- How the slice is selected. -/
  slice : Selection
  /-- Whether some material is without the texture. -/
  hasMissing : Bool
deriving DecidableEq, Repr

namespace SlicedTexture

/-- The number of a slice as a value, `-1` for none. -/
def sliceValue (slice : Option UInt32) : Value :=
  .int ((slice.map UInt32.toInt32).getD (-1))

/-- The texture with a slice for each material; `none` if there are no materials. -/
def ofSlices? (name default : String) (slices : List (Option UInt32)) : Option SlicedTexture :=
  (Selection.ofValues? (slices.map sliceValue)).map fun slice =>
    { name, default, slice, hasMissing := slices.any Option.isNone }

/-- The name of the texture array. -/
def arrayName (t : SlicedTexture) : String := t.name ++ "_Array"

/-- The name of the sampler of the array. -/
def samplerName (t : SlicedTexture) : String := "sampler" ++ t.name ++ "_Array"

/-- The name of the type that reads a slice. -/
def typeName (t : SlicedTexture) : String := "OptimizerTexture" ++ t.name

/-- The name of the instance of that type. -/
def instanceName (t : SlicedTexture) : String := "optimizerTexture" ++ t.name

/-! ## Recognising the declarations of the texture -/

/-- Whether, after at least `least` blanks, some rest of the text satisfies `p`. -/
def afterSomeBlanks (least : Nat) (p : List Char → Bool) : List Char → Bool
  | [] => least = 0 && p []
  | c :: rest =>
    (least = 0 && p (c :: rest)) || (Text.isBlank c && afterSomeBlanks (least - 1) p rest)

/-- Whether a text is a name, blanks and a semicolon. -/
def isNamed (name : String) (cs : List Char) : Bool :=
  match Text.after? name cs with
  | some rest => Text.skipBlanks rest = [';']
  | none => false

/-- Whether a text is a name, blanks, a closing parenthesis and perhaps a semicolon. -/
def isClosedArgument (name : String) (cs : List Char) : Bool :=
  match (Text.after? name cs).bind fun rest => Text.afterChar? ')' (Text.skipBlanks rest) with
  | some rest => Text.skipBlanks rest = [] || Text.skipBlanks rest = [';']
  | none => false

/-- Whether a text declares the texture by a legacy sampler type. -/
def isLegacySampler (name : String) (cs : List Char) : Bool :=
  ["sampler2D_half", "sampler2D_float", "sampler2D"].any fun word =>
    (Text.after? word cs).any (afterSomeBlanks 1 (isNamed name))

/-- Whether a text declares the texture by its texture type, with or without the type of its
texels. -/
def isTextureObject (name : String) (cs : List Char) : Bool :=
  (Text.after? "Texture2D" cs).any fun rest =>
    let behindArguments :=
      (Text.afterChar? '<' (Text.skipBlanks rest)).bind fun inner =>
        (Text.until? '>' inner).map (·.2)
    afterSomeBlanks 1 (isNamed name) rest
      || behindArguments.any (afterSomeBlanks 1 (isNamed name))

/-- Whether a text declares the sampler of the texture. -/
def isSamplerObject (name : String) (cs : List Char) : Bool :=
  (Text.after? "SamplerState" cs).any
    (afterSomeBlanks 1 fun rest => (Text.after? "sampler" rest).any (isNamed name))

/-- Whether a text declares the texture or its sampler by one of the macros of the engine. -/
def isDeclaringMacro (name : String) (cs : List Char) : Bool :=
  let isArgument (cs : List Char) : Bool :=
    isClosedArgument name cs || (Text.after? "sampler" cs).any (isClosedArgument name)
  ["UNITY_DECLARE_TEX2D_NOSAMPLER", "UNITY_DECLARE_TEX2D_HALF", "UNITY_DECLARE_TEX2D_FLOAT",
    "UNITY_DECLARE_TEX2D", "TEXTURE2D", "SAMPLER"].any fun word =>
    ((Text.after? word cs).bind fun rest => Text.afterChar? '(' (Text.skipBlanks rest)).any
      (afterSomeBlanks 0 isArgument)

/-- Whether a text without `uniform` in front declares the texture or its sampler. -/
def isBareDeclaration (name : String) (cs : List Char) : Bool :=
  isLegacySampler name cs || isTextureObject name cs || isSamplerObject name cs
    || isDeclaringMacro name cs

/-- Whether a line declares the texture or its sampler. -/
def isDeclaration (t : SlicedTexture) (line : String) : Bool :=
  let cs := line.toList
  isBareDeclaration t.name cs
    || ((Text.after? "uniform" cs).bind Text.afterBlanks?).any (isBareDeclaration t.name)

/-! ## The lines that take its place -/

/-- The declarations that take the place of the texture. -/
def declarations (t : SlicedTexture) : List String :=
  let array := t.arrayName
  let sampler := t.samplerName
  let type := t.typeName
  let self := t.instanceName
  let name := t.name
  let default := t.default
  let fallback := if t.hasMissing then s!"if (slice < 0) return {default}; " else ""
  [s!"Texture2DArray {array};",
   s!"SamplerState {sampler};",
   s!"struct {type}",
   "\x7b",
   "int slice;",
   s!"float4 Sample(SamplerState s, float2 uv) \x7b {fallback}return {array}.Sample(s, float3(uv, slice)); \x7d",
   s!"float4 Sample(SamplerState s, float2 uv, int2 offset) \x7b {fallback}return {array}.Sample(s, float3(uv, slice), offset); \x7d",
   s!"float4 SampleBias(SamplerState s, float2 uv, float bias) \x7b {fallback}return {array}.SampleBias(s, float3(uv, slice), bias); \x7d",
   s!"float4 SampleLevel(SamplerState s, float2 uv, float lod) \x7b {fallback}return {array}.SampleLevel(s, float3(uv, slice), lod); \x7d",
   s!"float4 SampleGrad(SamplerState s, float2 uv, float2 dx, float2 dy) \x7b {fallback}return {array}.SampleGrad(s, float3(uv, slice), dx, dy); \x7d",
   s!"float4 Load(int3 location) \x7b {fallback}return {array}.Load(int4(location.xy, slice, location.z)); \x7d",
   s!"void GetDimensions(out uint width, out uint height) \x7b uint elements; {array}.GetDimensions(width, height, elements); \x7d",
   s!"void GetDimensions(out float width, out float height) \x7b float elements; {array}.GetDimensions(width, height, elements); \x7d",
   s!"void GetDimensions(uint mip, out uint width, out uint height, out uint levels) \x7b uint elements; {array}.GetDimensions(mip, width, height, elements, levels); \x7d",
   s!"void GetDimensions(uint mip, out float width, out float height, out float levels) \x7b float elements; {array}.GetDimensions(mip, width, height, elements, levels); \x7d",
   "\x7d;",
   s!"static {type} {self};",
   s!"float4 tex2D({type} t, float2 uv) \x7b return t.Sample({sampler}, uv); \x7d",
   s!"float4 tex2Dlod({type} t, float4 uv) \x7b return t.SampleLevel({sampler}, uv.xy, uv.w); \x7d",
   s!"float4 tex2Dbias({type} t, float4 uv) \x7b return t.SampleBias({sampler}, uv.xy, uv.w); \x7d",
   s!"float4 tex2Dgrad({type} t, float2 uv, float2 dx, float2 dy) \x7b return t.SampleGrad({sampler}, uv, dx, dy); \x7d",
   s!"#define {name} {self}",
   s!"#define sampler{name} {sampler}"]

/-- The name under which the slices are selected. -/
def sliceName (t : SlicedTexture) : String := t.name ++ "Slice"

/-- The constant array of the slices, if their selection needs one. -/
def sliceDeclaration? (t : SlicedTexture) : Option String := t.slice.declaration? t.sliceName

/-- The statement that selects the slice of a material. -/
def sliceAssignment (t : SlicedTexture) (material : String) : String :=
  t.instanceName ++ ".slice = " ++ t.slice.expression t.sliceName material ++ ";"

/-- A function that reads every texture array, so that none of them is compiled out. -/
def usageFunction (textures : List SlicedTexture) : List String :=
  ["float optimizerDummyTextureUsage()", "\x7b", "float4 sum = 0;"]
    ++ textures.map (fun t =>
      "sum += " ++ t.arrayName ++ ".SampleLevel(" ++ t.samplerName ++ ", float3(0, 0, 0), 0);")
    ++ ["return sum.x;", "\x7d"]

/-- The statement of the fragment stage that keeps the function alive. -/
def usageStatement : String :=
  "if (_OptimizerZero > 0.5) clip(optimizerDummyTextureUsage() - 2);"

end SlicedTexture

end ShaderMerge.Variant
