import ShaderMerge.Include.Walk
import ShaderMerge.Property.Line
import ShaderMerge.Region.Filter
import ShaderMerge.Shader.Command
import ShaderMerge.Variant.Output
import ShaderMerge.Variant.Program

/-!
# Writing a variant

A `Writer` walks the sources of a shader and writes a variant of it.  Every line goes through the
filter of the regions first.  A line outside of program blocks is written with its commands
substituted, and the block of the properties gets the properties that the variant adds.  A line of
a program block goes to the `Program`.  Each include that is expanded becomes a chunk, and the
directive that includes the chunk takes its place.

`Shader.variant` is the whole of it: a variant, or the reason why there is none.
-/

namespace ShaderMerge.Variant

/-- A property that a variant adds. -/
structure AddedProperty where
  /-- The kind of the property. -/
  kind : PropertyKind
  /-- The name of the property. -/
  name : String
  /-- The line that declares it. -/
  line : String
deriving DecidableEq, Repr

/-- The entry of an added property in the list of the properties of the variant. -/
def AddedProperty.entry (p : AddedProperty) : PropertyKind × String := (p.kind, p.name)

/-- What a variant is made from. -/
structure Request where
  /-- The shader. -/
  shader : Shader
  /-- What the variant is asked to be. -/
  options : Options
  /-- What takes the place of its properties. -/
  substitution : Substitution

namespace Request

/-- The properties that the variant adds: a switch for each mesh if there are several, a zero if
there are texture arrays, and the registers. -/
def addedProperties (r : Request) : List AddedProperty :=
  let hidden (name displayName : String) (default : Binary32) : AddedProperty :=
    ⟨.float, name, PropertyLine.hiddenFloat name displayName default⟩
  let switches :=
    if 1 < r.options.meshCount then
      r.options.meshes.toList.map fun mesh =>
        hidden ("_IsActiveMesh" ++ toString mesh) ("Is Active Mesh " ++ toString mesh) .one
    else []
  let zero :=
    if r.substitution.textures.isEmpty then []
    else [hidden "_OptimizerZero" "Optimizer Zero" .zero]
  switches ++ zero
    ++ r.substitution.registers.propertyLines.map fun (name, line) => ⟨.vector, name, line⟩

/-- A line of the block of properties as the variant writes it, with the property it declares. -/
def propertyLine (r : Request) (line : String) : List (PropertyKind × String) × String :=
  match PropertyLine.ofText? line.toList with
  | none => ([], line)
  | some declaration =>
    let name := String.ofList declaration.head.name
    match r.substitution.texture? name with
    | some texture =>
      ([(.textureArray, texture.arrayName)], String.ofList declaration.toTextureArray.text)
    | none =>
      let kind := PropertyKind.ofTypeWord? (String.ofList declaration.head.typeWord)
      ((kind.map (·, name)).toList, line)

/-- A command as the variant writes it. -/
def command (r : Request) (line : String) : String :=
  String.ofList (Command.substitute r.substitution.inCommand? line.toList)

end Request

/-- What is known of the text outside of program blocks. -/
structure Outline where
  /-- The number of open braces. -/
  depth : Int
  /-- The place of the shader line in the main file. -/
  shaderLine : Option Nat
  /-- The place behind the first opening brace of the shader. -/
  shaderBody : Option Nat
  /-- Whether the next opening brace opens the block of the properties. -/
  propertiesAnnounced : Bool
  /-- The number of open braces in the block of the properties, while it is open. -/
  propertiesDepth : Option Int
  /-- Whether there is a block of properties. -/
  hasProperties : Bool
deriving DecidableEq, Repr

/-- A variant that is being written. -/
structure Writer where
  /-- What decides the regions. -/
  regions : Region.Filter
  /-- The lines of the main file. -/
  main : Array String
  /-- The lines of the chunks being written, innermost first. -/
  nested : List (Array String)
  /-- The finished chunks. -/
  chunks : List GeneratedFile
  /-- What is known of the text outside of program blocks. -/
  outline : Outline
  /-- The program block being written. -/
  program : Option Program
  /-- The number of program blocks so far. -/
  programs : Nat
  /-- The properties so far. -/
  properties : List (PropertyKind × String)
  /-- What has been reported of program blocks. -/
  reports : List String

namespace Writer

/-- A writer in front of the first line. -/
def new (r : Request) : Writer where
  regions := .new r.substitution.regionValues
  main := #[]
  nested := []
  chunks := []
  outline := ⟨0, none, none, false, none, false⟩
  program := none
  programs := 0
  properties := []
  reports := []

/-! ## Writing -/

/-- Write lines to the innermost chunk, or to the main file. -/
def put (w : Writer) (lines : List String) : Writer :=
  match w.nested with
  | [] => { w with main := w.main ++ lines }
  | chunk :: outer => { w with nested := (chunk ++ lines) :: outer }

/-- Write lines where the program block being written wants them. -/
def write (w : Writer) (lines : List String) : Writer :=
  match w.program with
  | none => w.put lines
  | some p =>
    let (p, out) := p.write lines
    { w with program := some p }.put out

/-- Feed a line to the filter of the regions, and write what the filter writes. -/
def feedRegions (w : Writer) (line : String) : Writer × Feed :=
  let fed := w.regions.feed line
  ({ w with regions := fed.filter }.write fed.written, fed.feed)

/-! ## Outside of program blocks -/

/-- Read an opening brace. -/
def openBrace (w : Writer) (line : String) : Writer :=
  let o : Outline := { w.outline with depth := w.outline.depth + 1 }
  let o : Outline :=
    if o.propertiesAnnounced then
      { o with propertiesAnnounced := false, propertiesDepth := some o.depth, hasProperties := true }
    else o
  let w := { w with outline := o }.put [line]
  -- The place is the one behind the brace, which has just been written.
  if o.depth == 1 && o.shaderBody.isNone then
    { w with outline := { o with shaderBody := some w.main.size } }
  else w

/-- Write the properties that the variant adds. -/
def putAdded (r : Request) (w : Writer) : Writer :=
  let added := r.addedProperties
  let w := { w with properties := w.properties ++ added.map AddedProperty.entry }
  w.put (added.map AddedProperty.line)

/-- Read a closing brace. -/
def closeBrace (r : Request) (w : Writer) (line : String) : Writer :=
  let o := w.outline
  -- What the variant adds comes last in the block of the properties.
  let w :=
    if o.propertiesDepth = some o.depth then
      { w with outline := { o with propertiesDepth := none } }.putAdded r
    else w
  { w with outline := { w.outline with depth := o.depth - 1 } }.put [line]

/-- Whether a line is the line that names the shader. -/
def isShaderLine (line : String) : Bool :=
  match Text.after? "Shader" line.toList with
  | some (c :: _) => Text.isBlank c || c == '"'
  | _ => false

/-- Read any other line outside of program blocks. -/
def outerStatement (r : Request) (w : Writer) (line : String) : Writer :=
  let o : Outline :=
    { w.outline with propertiesAnnounced := w.outline.depth == 1 && line == "Properties" }
  let o : Outline :=
    if o.shaderLine.isNone && o.depth == 0 && isShaderLine line then
      { o with shaderLine := some w.main.size }
    else o
  let w := { w with outline := o }
  if o.propertiesDepth = some o.depth then
    let (declared, line) := r.propertyLine line
    { w with properties := w.properties ++ declared }.put [line]
  else w.put [r.command line]

/-- Start a program block. -/
def startProgram (r : Request) (w : Writer) (line : String) : Except VariantError Writer := do
  let pass := (r.shader.passes[w.programs]?).getD .empty
  let plan ← Plan.new r.shader.name pass r.options
  let w := w.put (line :: Program.prelude r.substitution plan pass)
  return { w with
    program := some (.new r.options w.programs pass plan)
    programs := w.programs + 1 }

/-- Read a line outside of program blocks. -/
def outerLine (r : Request) (w : Writer) (line : String) : Except VariantError Writer :=
  if Include.isProgramStart line then w.startProgram r line
  else if line = "\x7b" then .ok (w.openBrace line)
  else if line = "\x7d" || line = "\x7d;" then .ok (w.closeBrace r line)
  else .ok (w.outerStatement r line)

/-! ## Inside a program block -/

/-- End a program block, with the line that ends it if there is one. -/
def endProgram (w : Writer) (p : Program) (line : Option String) : Except VariantError Writer := do
  let (held, report) ← p.finish
  return { w with program := none, reports := w.reports ++ report }.put (held ++ line.toList)

/-- Read a line of a program block. -/
def programLine (r : Request) (w : Writer) (p : Program) (line : String) :
    Except VariantError Writer :=
  if Include.isBlockEnd line then w.endProgram p (some line)
  else do
    let (p, written) ← p.line r.substitution line
    return { w with program := some p }.put written

/-! ## The walk -/

/-- Read a line of the sources. -/
def line (r : Request) (w : Writer) (line : String) : Except VariantError Writer :=
  match w.feedRegions line with
  | (w, .consumed) => .ok w
  | (w, .live) =>
    match w.program with
    | some p => w.programLine r p line
    | none => w.outerLine r line

/-- Read an include that the filter of the regions lets through; the answer says whether to expand
it.  Includes are expanded in live parts of program blocks only. -/
def liveInclude (w : Writer) (directive : String) (target : Option String) : Writer × Bool :=
  match w.program with
  | none => (w.put [directive], false)
  | some p =>
    let (p, written, feed) := p.feed directive
    let w := { w with program := some p }.put written
    match feed, target with
    | .consumed, _ => (w, false)
    | .live, some _ => (w, true)
    | .live, none => (w.write [directive], false)

/-- End an include that was expanded: its lines become a chunk, unless there is one with the same
name, and the chunk is included in its place. -/
def endInclude (w : Writer) (target : String) : Writer :=
  match w.nested with
  | [] => w
  | lines :: outer =>
    let lines := lines.toList
    -- The name holds the hash of the lines, so a chunk of this name counts as the same one.
    let name := chunkName (Include.fileStem target) (ContentHash.ofLines lines)
    let chunks :=
      if w.chunks.any (·.name = name) then w.chunks else w.chunks ++ [⟨name, lines⟩]
    { w with nested := outer, chunks }.write [Directive.includeLine name]

/-- Read one event of a walk.  A repeated include is left out together with its directive. -/
def event (r : Request) (w : Writer) (walk : Include.Walk) :
    Include.Event → Except VariantError (Writer × Include.Walk)
  | .line _ text => (w.line r text).map (·, walk)
  | .include_ _ directive target =>
    match w.feedRegions directive with
    | (w, .consumed) => .ok (w, walk)
    | (w, .live) =>
      match w.liveInclude directive target with
      | (w, false) => .ok (w, walk)
      | (w, true) =>
        match walk.descend r.shader.sources with
        | (true, walk) => .ok ({ w with nested := #[] :: w.nested }, walk)
        | (false, walk) => .ok (w, walk)
  | .endInclude _ target => .ok (w.endInclude target, walk)

/-! ## The end -/

/-- Add a block of properties to a shader that has none, if the variant adds any. -/
def addProperties (r : Request) (w : Writer) : Writer :=
  let added := r.addedProperties
  match w.outline.shaderBody with
  | none => w
  | some place =>
    if w.outline.hasProperties || added.isEmpty then w
    else
      let block := ["Properties", "\x7b"] ++ added.map AddedProperty.line ++ ["\x7d"]
      let lines := w.main.toList
      { w with
        properties := w.properties ++ added.map AddedProperty.entry
        main := (lines.take place ++ block ++ lines.drop place).toArray }

/-- What is reported of the regions. -/
def regionReport (w : Writer) : List String :=
  let dropped := w.regions.droppedLines
  w.regions.diagnostics
    ++ if dropped = 0 then [] else ["Dropped " ++ toString dropped ++ " lines in #ifex regions"]

/-- The variant at the end of the walk.  Its name holds the hash of the main file, in which the
shader line still has the name of the shader. -/
def finish (r : Request) (w : Writer) : Except VariantError GeneratedShader := do
  let w ← match w.program with
    | some p => w.endProgram p none
    | none => .ok w
  let w := w.addProperties r
  let lines := w.main.toList
  let hash := ContentHash.ofLines lines
  let name := "Hidden/Optimized/" ++ r.shader.name ++ "/" ++ ContentHash.text hash
  let named :=
    match w.outline.shaderLine with
    | some place => lines.set place ("Shader \"" ++ name ++ "\"")
    | none => lines
  return {
    name
    hash
    main := ⟨safeFileName r.shader.name ++ "_" ++ ContentHash.text hash ++ ".shader", named⟩
    chunks := w.chunks
    properties := w.properties
    registers := r.substitution.registers
    diagnostics := w.reports ++ w.regionReport
    source := r.shader }

end Writer

end ShaderMerge.Variant

namespace ShaderMerge.Shader

open Variant

/-- The variant of a shader that the options ask for, or the reason why there is none. -/
def variant (s : Shader) (o : Options) : Except VariantError GeneratedShader := do
  let substitution ← Substitution.new s o
  let r : Request := ⟨s, o, substitution⟩
  let (w, _) ← Include.Walk.fold s.sources .endlessWalk (Writer.event r) s.sources.walkLimit
    (.new r) (.start s.sources)
  w.finish r

end ShaderMerge.Shader
