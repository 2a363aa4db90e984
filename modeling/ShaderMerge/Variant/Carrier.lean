import ShaderMerge.Value
import ShaderMerge.Variant.Error

/-!
# Carriers of the packed number

A stage hands the packed number on by wrapping its output.  A `Carrier` is the structure that
holds the output, its payload, together with the number.
-/

namespace ShaderMerge.Variant

/-- The semantic under which the packed number goes from stage to stage. -/
def packedSemantic : String := "OPTIMIZER_PACKED_ID"

/-- The stages whose output is wrapped. -/
inductive CarrierRole where
  | vertex
  | geometry
deriving DecidableEq, Repr

namespace CarrierRole

/-- The name of the structure. -/
def typeName : CarrierRole → String
  | vertex => "OptimizerVertexOutput"
  | geometry => "OptimizerGeometryOutput"

/-- The name of the function that wraps an output. -/
def wrapper : CarrierRole → String
  | vertex => "optimizerWrapVertexOutput"
  | geometry => "optimizerWrapGeometryOutput"

end CarrierRole

/-- A structure that holds the output of a stage together with the packed number. -/
structure Carrier where
  /-- The stage whose output is held. -/
  role : CarrierRole
  /-- The type of the output. -/
  payload : String
  /-- The semantic of the output, if it has one of its own. -/
  semantic : Option String
deriving DecidableEq, Repr

namespace Carrier

/-- The name of the structure. -/
def name (c : Carrier) : String := c.role.typeName

/-- The definitions of the structure and of the function that wraps an output. -/
def definition (c : Carrier) : List String :=
  let semantic := (c.semantic.map (" : " ++ ·)).getD ""
  ["struct " ++ c.name,
   "\x7b",
   c.payload ++ " payload" ++ semantic ++ ";",
   "nointerpolation uint optimizerPackedID : " ++ packedSemantic ++ ";",
   "\x7d;",
   c.name ++ " " ++ c.role.wrapper ++ "(" ++ c.payload ++ " payload, uint id) \x7b " ++ c.name
    ++ " output; output.payload = payload; output.optimizerPackedID = id; return output; \x7d"]

end Carrier

end ShaderMerge.Variant
