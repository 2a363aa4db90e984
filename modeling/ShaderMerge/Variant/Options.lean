import ShaderMerge.Table
import ShaderMerge.Value
import ShaderMerge.Variant.Error

/-!
# What a variant is asked to be

The `Options` of a variant say which properties become constants, which are selected by
material, which textures become slices of an array, which properties are animated on which mesh,
which meshes share the draw call, and what is known of the symbols in its programs.
-/

namespace ShaderMerge.Variant

/-- Numbers from a first one up to below an end.  The range is empty if the end is not above
the first one. -/
structure Range where
  /-- The first number. -/
  first : Nat
  /-- The number behind the last one. -/
  stop : Nat
deriving DecidableEq, Repr

namespace Range

/-- How many numbers the range holds. -/
def size (r : Range) : Nat := r.stop - r.first

/-- The numbers in order. -/
def toList (r : Range) : List Nat := (List.range r.size).map (r.first + ·)

end Range

/-- The color space of a project. -/
inductive ColorSpace where
  | gamma
  | linear
deriving DecidableEq, Repr

/-- What the color space says of the symbol that the engine defines for it. -/
def ColorSpace.known (c : ColorSpace) : String × Bool :=
  ("UNITY_COLORSPACE_GAMMA", c = .gamma)

/-- The options of a variant. -/
structure Options where
  /-- The properties that become constants. -/
  statics : Table String Value
  /-- The properties that are selected by material, with a value for each. -/
  arrays : Table String (List Value)
  /-- The textures that become slices, with a slice for each material that has the texture. -/
  textures : Table String (List (Option UInt32))
  /-- The animated properties of each mesh. -/
  animated : Table Nat NameSet
  /-- The meshes that share the draw call. -/
  meshes : Range
  /-- The keywords that are on in every pass. -/
  enabled : NameSet
  /-- The keywords that are off in every pass. -/
  disabled : NameSet
  /-- Whether keywords are on in single passes, which counts more. -/
  passKeywords : Table Nat (Table String Bool)
  /-- Whether symbols are defined in every pass. -/
  known : Table String Bool
  /-- The color space, if it is known. -/
  colorSpace : Option ColorSpace
  /-- Whether texture properties are used. -/
  textureUsage : Table String Bool
  /-- The channel of texture coordinates that brings the packed number. -/
  channel : Nat
deriving DecidableEq

namespace Options

/-- Options that change nothing. -/
def new : Options where
  statics := ∅
  arrays := ∅
  textures := ∅
  animated := ∅
  meshes := ⟨0, 1⟩
  enabled := ∅
  disabled := ∅
  passKeywords := ∅
  known := ∅
  colorSpace := none
  textureUsage := ∅
  channel := 7

/-- Mark a property as animated on a mesh. -/
def animate (o : Options) (mesh : Nat) (property : String) : Options :=
  { o with
    animated := o.animated.insert mesh (((o.animated.get? mesh).getD ∅).add property) }

/-- Switch a keyword on or off in one pass. -/
def setPassKeyword (o : Options) (pass : Nat) (keyword : String) (isOn : Bool) : Options :=
  { o with
    passKeywords :=
      o.passKeywords.insert pass (((o.passKeywords.get? pass).getD ∅).insert keyword isOn) }

/-- What the options say of symbols in a pass, the later entries counting more: the known
symbols, the color space, the keywords of all passes and those of the pass. -/
def passDefines (o : Options) (pass : Nat) : List (String × Bool) :=
  o.known.entries ++ (o.colorSpace.map ColorSpace.known).toList
    ++ o.enabled.keys.map (·, true) ++ o.disabled.keys.map (·, false)
    ++ ((o.passKeywords.get? pass).map (·.entries)).getD []

/-- The number of meshes that share the draw call. -/
def meshCount (o : Options) : Nat := o.meshes.size

/-- Whether a property is animated. -/
def hasAnimated (o : Options) : Bool := o.animated.values.any (!·.isEmpty)

/-- Whether the stages behind the vertex stage need the packed number. -/
def needsCarrying (o : Options) : Bool :=
  !o.arrays.isEmpty || !o.textures.isEmpty || o.hasAnimated

/-- Whether the vertex stage needs the packed number. -/
def needsDecoding (o : Options) : Bool := o.needsCarrying || 1 < o.meshCount

/-- The greatest number of materials, which twelve bits tell apart. -/
def maxMaterials : Nat := Nat.pow 2 12

/-- The lengths of the lists with an entry for each material, by name.  The list of a texture
hides the list of a property of the same name. -/
def lengths (o : Options) : Table String Nat :=
  (o.arrays.map fun _ values => values.length).insertAll
    (o.textures.map fun _ slices => slices.length).entries

/-- Compare the lengths of lists with an expected one, in order. -/
def checkLengths (expected : Nat) : List (String × Nat) → Except VariantError Unit
  | [] => .ok ()
  | (property, count) :: rest =>
    if count = 0 then .error (.noValues property)
    else if count != expected then .error (.countMismatch property count expected)
    else checkLengths expected rest

/-- The number of materials: the length that all lists have, or one if there are no lists. -/
def materialCount (o : Options) : Except VariantError Nat :=
  match o.lengths.entries with
  | [] => .ok 1
  | (property, expected) :: rest => do
    checkLengths expected ((property, expected) :: rest)
    if maxMaterials < expected then .error (.tooManyMaterials expected maxMaterials)
    else .ok expected

end Options

end ShaderMerge.Variant
