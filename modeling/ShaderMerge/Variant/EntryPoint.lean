import ShaderMerge.Signature.Function
import ShaderMerge.Stage
import ShaderMerge.Variant.BodyEdit
import ShaderMerge.Variant.Plan
import ShaderMerge.Variant.SignatureEdit
import ShaderMerge.Variant.SlicedTexture

/-!
# Entry points that take the packed number

`EntryPoint.adapt` writes the entry point of a stage anew, as the plan of its pass asks: it
edits the signature, gives the lines that open the body and set the numbers of the material and
of the mesh, and says what is to be edited in the body.
-/

namespace ShaderMerge.Variant

/-- An entry point as it is written anew. -/
structure EntryPoint where
  /-- The carriers that the signature refers to. -/
  carriers : List Carrier
  /-- The lines of the signature. -/
  signature : List String
  /-- The lines that open the body. -/
  prologue : List String
  /-- What is edited in the body. -/
  body : BodyEdit
deriving DecidableEq, Repr

namespace EntryPoint

/-- The lines that take the packed number apart: twelve bits for the material, and the mesh
above them. -/
def decodeLines : List String :=
  ["materialID = optimizerPackedID & 0xFFF;", "meshID = optimizerPackedID >> 12;"]

/-! ## The vertex stage -/

/-- The lines that return early, with zeros for all outputs. -/
def earlyReturn (s : Signature) (returnType : String) : List String :=
  if returnType = "void" then
    let outputs := s.parameters.filter fun p => p.modifiers.contains "out" && p.arraySize.isNone
    outputs.map (fun p => p.name ++ " = (" ++ p.type ++ ")0;") ++ ["return;"]
  else ["return (" ++ returnType ++ ")0;"]

/-- The lines that return early if the mesh is switched off. -/
def toggleLines (s : Signature) (returnType : String) (meshes : Range) : List String :=
  let flags := meshes.toList.map fun mesh => "_IsActiveMesh" ++ toString mesh
  ["float optimizerMeshActive[" ++ toString meshes.size ++ "] = \x7b "
      ++ String.intercalate ", " flags ++ " \x7d;",
    "if (optimizerMeshActive[meshID - " ++ toString meshes.first ++ "] < 0.5)", "\x7b"]
    ++ earlyReturn s returnType ++ ["\x7d"]

/-- The parameter that takes the packed number. -/
def packedParameter (channel : Nat) : String :=
  "float4 optimizerPackedUV : TEXCOORD" ++ toString channel

/-- The parameter that hands the packed number on beside the output. -/
def packedOutput : String := "out nointerpolation uint optimizerPackedIDOut : " ++ packedSemantic

/-- The entry point of the vertex stage. -/
def vertex (p : Plan) (s : Signature) (lines : List String) : Except VariantError EntryPoint :=
  let carrier := if p.carries then p.vertexCarrier else none
  -- Without a value to wrap, the number is handed on as an output of its own.
  let besides := p.carries && carrier.isNone
  let returnType := (carrier.map (·.name)).getD s.returnType
  let edited :=
    match carrier with
    | some c =>
      SignatureEdit.replaceReturnType c.name (SignatureEdit.removeReturnSemantic lines)
    | none => if besides then SignatureEdit.appendParameter packedOutput true lines else lines
  match SignatureEdit.prependParameter? (packedParameter p.channel) (!s.parameters.isEmpty)
      edited with
  | none => .error (.badSignature s.name)
  | some signature =>
    .ok {
      carriers := carrier.toList
      signature
      prologue :=
        ["optimizerPackedID = (uint)optimizerPackedUV.x;"]
          ++ (if besides then ["optimizerPackedIDOut = optimizerPackedID;"] else [])
          ++ decodeLines ++ (p.toggled.map (toggleLines s returnType)).getD []
      body := if carrier.isSome then .wrapReturn else .keep }

/-! ## The geometry stage -/

/-- The input array of a geometry stage: its first array of a type. -/
def inputArray? (s : Signature) (type : String) : Option (Parameter × String) :=
  s.parameters.findSome? fun p =>
    p.arraySize.bind fun size => if p.type = type then some (p, size) else none

/-- The lines that unwrap the input array. -/
def unwrapArray (input : Parameter) (size : String) : List String :=
  [input.type ++ " " ++ input.name ++ "[" ++ size ++ "];",
   "for (uint optimizerIndex = 0; optimizerIndex < " ++ size ++ "; optimizerIndex++) "
    ++ input.name ++ "[optimizerIndex] = optimizerGeometryInput[optimizerIndex].payload;",
   "optimizerPackedID = optimizerGeometryInput[0].optimizerPackedID;"]

/-- What was found, or the fault that it was not. -/
def found {α : Type} (fault : SignatureFault) : Option α → Except SignatureFault α
  | some a => .ok a
  | none => .error fault

/-- The entry point of the geometry stage, or its fault. -/
def geometryOrFault (p : Plan) (s : Signature) (lines : List String) :
    Except SignatureFault EntryPoint :=
  match p.vertexCarrier, p.geometryCarrier with
  | some vertexCarrier, some geometryCarrier => do
    let (input, size) ← found .noInputArray (inputArray? s vertexCarrier.payload)
    let (stream, vertexType) ← found .noStream s.stream?
    let lines ← found .inputNotLocated (SignatureEdit.replaceParameter? input.type input.name
      (vertexCarrier.name ++ " optimizerGeometryInput") lines)
    let signature ← found .streamNotLocated
      (SignatureEdit.replaceStreamVertex? vertexType geometryCarrier.name lines)
    return {
      carriers := [vertexCarrier, geometryCarrier]
      signature
      prologue := unwrapArray input size ++ decodeLines
      body := .wrapAppend stream }
  | _, _ => .error .noCarrier

/-- The entry point of the geometry stage. -/
def geometry (p : Plan) (s : Signature) (lines : List String) : Except VariantError EntryPoint :=
  (geometryOrFault p s lines).mapError (.unsupportedSignature .geometry s.name ·)

/-! ## The fragment stage -/

/-- Whether a parameter is an input that a carrier brings. -/
def isCarried (c : Carrier) (p : Parameter) : Bool :=
  p.type = c.payload && p.semantic.isNone && p.arraySize.isNone && !p.isOutput

/-- The carrier of the input of the fragment stage, the parameter that it brings, and the lines
of the signature with the one in the place of the other. -/
def unwrapInput? (p : Plan) (s : Signature) (lines : List String) :
    Option (Carrier × Parameter × List String) := do
  let carrier ← p.fragmentCarrier
  let input ← s.parameters.find? (isCarried carrier)
  let lines ← SignatureEdit.replaceParameter? input.type input.name
    (carrier.name ++ " optimizerInput") lines
  return (carrier, input, lines)

/-- The parameter that takes the packed number where no carrier brings it. -/
def packedInput : String := "nointerpolation uint optimizerPackedIDIn : " ++ packedSemantic

/-- The entry point of the fragment stage. -/
def fragment (p : Plan) (s : Signature) (lines : List String) : EntryPoint :=
  let ending := decodeLines ++ if p.hasTextures then [SlicedTexture.usageStatement] else []
  match unwrapInput? p s lines with
  | some (carrier, input, signature) =>
    { carriers := [carrier]
      signature
      prologue :=
        [input.type ++ " " ++ input.name ++ " = optimizerInput.payload;",
          "optimizerPackedID = optimizerInput.optimizerPackedID;"] ++ ending
      body := .keep }
  | none =>
    { carriers := []
      signature := SignatureEdit.appendParameter packedInput (!s.parameters.isEmpty) lines
      prologue := "optimizerPackedID = optimizerPackedIDIn;" :: ending
      body := .keep }

/-! ## All stages -/

/-- The text of a signature: its lines without the directives, joined by spaces. -/
def codeOf (lines : List String) : String :=
  String.intercalate " " (lines.filter (!Directive.isMarked ·))

/-- The entry point of a stage, given the lines from its return type up to its body. -/
def adapt (stage : Stage) (p : Plan) (lines : List String) : Except VariantError EntryPoint :=
  let code := codeOf lines
  match Signature.ofText? code.toList lines with
  | none => .error (.badSignature code)
  | some s =>
    let lines := SignatureEdit.clearVoid lines
    match stage with
    | .vertex => vertex p s lines
    | .hull => .ok ⟨[], lines, [], .keep⟩
    | .domain => .ok ⟨[], lines, [], .keep⟩
    | .geometry => geometry p s lines
    | .fragment => .ok (fragment p s lines)

end EntryPoint

end ShaderMerge.Variant
