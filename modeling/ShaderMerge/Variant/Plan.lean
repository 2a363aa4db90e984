import ShaderMerge.Shader.Model
import ShaderMerge.Signature.Stream
import ShaderMerge.Variant.Carrier
import ShaderMerge.Variant.Options

/-!
# How the packed number travels through a pass

The vertex stage reads the packed number from a channel of texture coordinates.  If later stages
need it, the vertex stage hands it on inside its output or, if it returns nothing, beside it; a
geometry stage unwraps what it gets and wraps what it writes.  A `Plan` is what each stage of a
pass has to do.
-/

namespace ShaderMerge.Variant

/-- What the stages of a pass do with the packed number. -/
structure Plan where
  /-- Whether the vertex stage reads the number. -/
  decodes : Bool
  /-- Whether later stages get the number. -/
  carries : Bool
  /-- The channel of texture coordinates that brings the number. -/
  channel : Nat
  /-- The meshes that can be switched off, if there are several. -/
  toggled : Option Range
  /-- What holds the output of the vertex stage. -/
  vertexCarrier : Option Carrier
  /-- What holds the output of the geometry stage. -/
  geometryCarrier : Option Carrier
  /-- Whether textures are served from arrays. -/
  hasTextures : Bool
deriving DecidableEq, Repr

namespace Plan

/-- What holds the output of a vertex stage: a carrier, if the stage returns anything. -/
def carrierOfVertex (vertex : Signature) : Option Carrier :=
  if vertex.returnType = "void" then none
  else some ⟨.vertex, vertex.returnType, vertex.returnSemantic⟩

/-- What holds the output of a geometry stage: a carrier, if the stage writes to a stream. -/
def carrierOfGeometry (geometry : Signature) : Option Carrier :=
  geometry.stream?.map fun (_, vertex) => ⟨.geometry, vertex, none⟩

/-- The carriers of the vertex and the geometry stage of a pass.  A geometry stage needs both. -/
def carriers (pass : Pass) : Except VariantError (Option Carrier × Option Carrier) :=
  let vertex := pass.entryPoints.vertex
  let vertexCarrier := vertex.bind carrierOfVertex
  match pass.entryPoints.geometry with
  | none => .ok (vertexCarrier, none)
  | some geometry =>
    let geometryCarrier := carrierOfGeometry geometry
    if vertexCarrier.isNone then
      .error (.unsupportedSignature .vertex ((vertex.map (·.name)).getD "") .voidVertex)
    else if geometryCarrier.isNone then
      .error (.unsupportedSignature .geometry geometry.name .noStream)
    else .ok (vertexCarrier, geometryCarrier)

/-- The plan for a pass of the shader of a name. -/
def new (shader : String) (pass : Pass) (o : Options) : Except VariantError Plan := do
  let carries := o.needsCarrying
  if carries && pass.hasTessellation then .error (.tessellated shader)
  else
    let (vertexCarrier, geometryCarrier) ← if carries then carriers pass else .ok (none, none)
    .ok {
      decodes := o.needsDecoding
      carries
      channel := o.channel
      toggled := if 1 < o.meshCount then some o.meshes else none
      vertexCarrier
      geometryCarrier
      hasTextures := !o.textures.isEmpty }

/-- Whether the entry point of a stage is written anew. -/
def changes (p : Plan) : Stage → Bool
  | .vertex => p.decodes
  | .hull => false
  | .domain => false
  | .geometry => p.carries
  | .fragment => p.carries

/-- What holds the input of the fragment stage. -/
def fragmentCarrier (p : Plan) : Option Carrier := p.geometryCarrier.or p.vertexCarrier

end Plan

end ShaderMerge.Variant
