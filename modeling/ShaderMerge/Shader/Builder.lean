import ShaderMerge.Condition.Filter
import ShaderMerge.Include.Walk
import ShaderMerge.LightMode
import ShaderMerge.Property.Default
import ShaderMerge.Property.Line
import ShaderMerge.Region.Filter
import ShaderMerge.Shader.Command
import ShaderMerge.Shader.Model
import ShaderMerge.Text.Word

/-!
# Reading a shader

`Shader.read` walks the sources of a shader once and builds its model.  Outside of program
blocks a `Builder` follows the braces and the three places of interest, the shader line, the
properties and the tags.  Inside it follows conditional groups, with what the light mode of the
pass says about names, collects signatures and bindings, and skips the directives of regions.

A signature may take several lines.  It is complete when its parentheses close, and it belongs
to a function if a body follows.
-/

namespace ShaderMerge

namespace Builder

/-! ## State -/

/-- Where the builder stands outside of program blocks. -/
inductive Place where
  /-- In front of the shader line. -/
  | start
  /-- In the block of the properties. -/
  | properties
  /-- In a block of tags. -/
  | tags
  /-- Anywhere else. -/
  | commands
deriving DecidableEq, Repr

/-- A signature that is being collected. -/
structure Draft where
  /-- The text so far. -/
  text : String
  /-- The lines so far, with the directives among them. -/
  lines : List String
  /-- The number of open parentheses. -/
  depth : Int
deriving DecidableEq, Repr

namespace Draft

/-- The draft that a line starts. -/
def ofLine (line : String) : Draft := ⟨line, [line], Signature.parenBalance line.toList⟩

/-- The draft with one more line of text. -/
def addLine (d : Draft) (line : String) : Draft :=
  ⟨d.text ++ " " ++ line, d.lines ++ [line], d.depth + Signature.parenBalance line.toList⟩

/-- The draft with one more directive. -/
def addDirective (d : Draft) (line : String) : Draft := { d with lines := d.lines ++ [line] }

end Draft

/-- What is being collected in a program block. -/
inductive Capture where
  /-- Nothing. -/
  | idle
  /-- A signature whose parentheses are open. -/
  | parameters (draft : Draft)
  /-- A signature whose parentheses are closed, and which waits for a body. -/
  | complete (draft : Draft)
deriving DecidableEq, Repr

namespace Capture

/-- Go on with a draft. -/
def ofDraft (d : Draft) : Capture := if d.depth ≤ 0 then complete d else parameters d

/-- Note a directive that the filter has dealt with. -/
def addDirective (c : Capture) (line : String) : Capture :=
  match c with
  | idle => idle
  | parameters d => parameters (d.addDirective line)
  | complete d => complete (d.addDirective line)

/-- Note a live directive, which counts only between parentheses. -/
def addLiveDirective (c : Capture) (line : String) : Capture :=
  match c with
  | parameters d => parameters (d.addDirective line)
  | other => other

end Capture

/-- A program block that is being read. -/
structure Program where
  /-- What decides its conditional groups. -/
  filter : Condition.Filter
  /-- The names bound to the stages. -/
  bindings : PerStage (Option String)
  /-- The keywords of the pass. -/
  keywords : NameSet
  /-- The light mode of the pass. -/
  lightMode : Option String
  /-- The number of open braces. -/
  depth : Int
  /-- What is being collected. -/
  capture : Capture

/-- A program block of a pass with a light mode. -/
def Program.new (lightMode : Option String) : Program where
  filter := .new (LightMode.defines lightMode)
  bindings := .const none
  keywords := ∅
  lightMode
  depth := 0
  capture := .idle

end Builder

/-- The state of the reading of a shader. -/
structure Builder where
  /-- Where the builder stands. -/
  place : Builder.Place
  /-- The place that the next opening brace leads to, if it leads to one. -/
  announced : Option Builder.Place
  /-- The number of open braces outside of program blocks. -/
  depth : Int
  /-- The number of open braces in the block of properties or tags. -/
  placeDepth : Int
  /-- The name from the shader line. -/
  name : Option String
  /-- The properties so far. -/
  properties : List Property
  /-- The tags that stand in front of the next property. -/
  tags : List String
  /-- The uses of properties by commands so far, as name and command. -/
  sites : List (String × String)
  /-- The light mode that the tags give. -/
  lightMode : Option String
  /-- The program block that is being read. -/
  program : Option Builder.Program
  /-- The passes so far. -/
  passes : List Pass
  /-- The functions so far. -/
  functions : Table String Signature
  /-- The keywords so far. -/
  keywords : NameSet
  /-- Whether a stage of the tessellation is bound. -/
  hasTessellation : Bool
  /-- Whether a tag forbids batching. -/
  disablesBatching : Bool
  /-- Whether a macro declares textures. -/
  hasTextureMacros : Bool
  /-- Whether the braces of a program block did not close. -/
  hasMismatchedBraces : Bool

namespace Builder

/-- The builder in front of the first line. -/
def new : Builder where
  place := .start
  announced := none
  depth := 0
  placeDepth := 0
  name := none
  properties := []
  tags := []
  sites := []
  lightMode := none
  program := none
  passes := []
  functions := ∅
  keywords := ∅
  hasTessellation := false
  disablesBatching := false
  hasTextureMacros := false
  hasMismatchedBraces := false

/-! ## Outside of program blocks -/

/-- Note the tags of a line of a block of tags. -/
def tagsLine (b : Builder) (line : String) : Builder :=
  (Command.tagPairs line.toList).foldl (fun b (key, value) =>
    if Text.sameLetters key "DisableBatching" && Text.sameLetters value "true" then
      { b with disablesBatching := true }
    else if Text.sameLetters key "LightMode" then { b with lightMode := some value }
    else b) b

/-- The longest tag of a property that means anything, in bytes. -/
def maxTagLength : Nat := 5

/-- The tags of a property that may mean something, in lower case. -/
def knownTags (bodies : List (List Char)) : List String :=
  ((bodies.map Text.trimmed).filter (Text.byteLength · ≤ maxTagLength)).map fun tag =>
    Text.lowerLetters (String.ofList tag)

/-- The default text of a declaration: behind an optional range, a closing parenthesis and an
equals sign, up to the end, without line feeds. -/
def defaultText? (cs : List Char) : Option (List Char) := do
  let cs := Text.skipBlanks cs
  let cs ← match cs with
    | '(' :: inner => (Text.until? ')' inner).map (·.2)
    | cs => some cs
  let cs ← Text.afterChar? ')' (Text.skipBlanks cs)
  let cs ← Text.afterChar? '=' (Text.skipBlanks cs)
  let text := Text.skipBlanks cs
  if text.contains '\n' then none else some text

/-- The declaration of a property behind its tags. -/
def property? (tags : List String) (cs : List Char) : Option Property := do
  let head ← PropertyHead.ofText? cs
  let text ← defaultText? head.rest
  let (type, default) ←
    PropertyDefault.ofDeclaration? (String.ofList head.typeWord) text (tags.contains "hdr")
  return {
    name := String.ofList head.name
    displayName := String.ofList head.displayName
    type
    default
    isGamma := tags.contains "gamma"
    sites := ∅ }

/-- A property with the properties that come with it: a texture has a vector for its scale and
offset. -/
def withCompanion (p : Property) : List Property :=
  if p.type.isTexture then [p, .plain (p.name ++ "_ST") .vector "float4(1, 1, 0, 0)"] else [p]

/-- Read a line of the block of properties.  A line of tags alone belongs to the next one. -/
def propertyLine (b : Builder) (line : String) : Except ShaderError Builder :=
  let (_, bodies, rest) := PropertyTag.readAll line.toList
  let tags := b.tags ++ knownTags bodies
  if rest.isEmpty then .ok { b with tags }
  else
    match property? tags rest with
    | none => .error (.badProperty line)
    | some p => .ok { b with tags := [], properties := b.properties ++ withCompanion p }

/-- The name on the shader line, behind its first word. -/
def shaderName (rest : List Char) : String :=
  let isQuote (c : Char) : Bool := c == '"'
  String.ofList (Text.dropEndWhile isQuote ((Text.trimmed rest).dropWhile isQuote))

/-- Read a line that is no brace and no directive. -/
def commandLine (b : Builder) (line : String) : Except ShaderError Builder :=
  let b := { b with announced := none }
  match b.place with
  | .start =>
    match Text.after? "Shader" line.toList with
    | some rest => .ok { b with name := some (shaderName rest), place := .commands }
    | none => .ok b
  | .properties => b.propertyLine line
  | .tags => .ok (b.tagsLine line)
  | .commands =>
    match line with
    | "Properties" => .ok { b with announced := some .properties }
    | "Tags" => .ok { b with announced := some .tags }
    | "Pass" => .ok { b with lightMode := none }
    | _ =>
      let command := (Text.wordStrings line).headD ""
      .ok { b with
        sites := b.sites ++ (Command.properties line.toList).map fun name => (name, command) }

/-- Read an opening brace. -/
def openBrace (b : Builder) : Builder :=
  match b.announced with
  | some place =>
    { b with depth := b.depth + 1, announced := none, place, placeDepth := b.depth + 1 }
  | none => { b with depth := b.depth + 1 }

/-- Read a closing brace. -/
def closeBrace (b : Builder) : Builder :=
  let leaves := (b.place = .properties || b.place = .tags) && b.depth == b.placeDepth
  { b with depth := b.depth - 1, place := if leaves then .commands else b.place }

/-- Read a line outside of program blocks. -/
def outerLine (b : Builder) (line : String) : Except ShaderError Builder :=
  if Include.isProgramStart line then .ok { b with program := some (.new b.lightMode) }
  else if Directive.isMarked line then .ok b
  else if line = "\x7b" then .ok b.openBrace
  else if line = "\x7d" || line = "\x7d;" then .ok b.closeBrace
  else b.commandLine line

/-! ## Inside a program block -/

/-- Whether a word of a macro shows that it declares textures. -/
def isTextureWord (word : List Char) : Bool :=
  ["UNITY_DECLARE_TEX2D", "UNITY_DECLARE_TEXCUBE", "TEXTURE2D", "Texture2D"].any
      (fun start => (Text.after? start word).isSome)
    || word = "sampler2D".toList || word = "SAMPLER".toList

/-- Whether the text of a macro declares textures. -/
def declaresTextures (text : String) : Bool :=
  (Text.splitWhere (!Text.isWord ·) text.toList).any isTextureWord

/-- Note the words of a pragma. -/
def pragma (b : Builder) (p : Program) (words : List String) : Builder × Program :=
  match words with
  | [] => (b, p)
  | first :: others =>
    match Stage.ofName? first with
    | some stage =>
      ({ b with hasTessellation := b.hasTessellation || stage.isTessellation },
        match others with
        | [] => p
        | name :: _ => { p with bindings := p.bindings.set stage (some name) })
    | none =>
      if (Text.after? "shader_feature" first.toList).isSome then
        let keywords := others.filter (· != "_")
        ({ b with keywords := b.keywords.addAll keywords },
          { p with keywords := p.keywords.addAll keywords })
      else (b, p)

/-- Note a live directive. -/
def directiveLine (b : Builder) (p : Program) (line : String) : Builder × Program :=
  match Directive.ofLine? line with
  | some ⟨"pragma", rest⟩ => b.pragma p (Text.wordStrings rest)
  | some ⟨"define", rest⟩ =>
    ({ b with hasTextureMacros := b.hasTextureMacros || declaresTextures rest }, p)
  | _ => (b, p)

/-- Read a live line of code while nothing is being collected. -/
def codeLine (p : Program) (line : String) : Program :=
  if line = "\x7b" then { p with depth := p.depth + 1 }
  else if line = "\x7d" || line = "\x7d;" then { p with depth := p.depth - 1 }
  else if p.depth = 0 && (Signature.Header.ofText? line.toList).isSome
      && line.toList.getLast? != some ';' then
    { p with capture := .ofDraft (.ofLine line) }
  else p

/-- Read a live line of code. -/
def liveLine (b : Builder) (p : Program) (line : String) :
    Except ShaderError (Builder × Program) :=
  match p.capture with
  | .idle => .ok (b, codeLine p line)
  | .parameters draft => .ok (b, { p with capture := .ofDraft (draft.addLine line) })
  | .complete draft =>
    if line = "\x7b" then
      match Signature.ofText? draft.text.toList draft.lines with
      | none => .error (.badFunction draft.text)
      | some signature =>
        .ok ({ b with functions := b.functions.insert signature.name signature },
          { p with capture := .idle, depth := p.depth + 1 })
    else if line.toList.head? = some ':' then
      .ok (b, { p with
        capture := .complete
          { draft with text := draft.text ++ " " ++ line, lines := draft.lines ++ [line] } })
    else .ok (b, codeLine { p with capture := .idle } line)

/-- The functions bound to the stages of a pass; each must have been defined. -/
def entryPoints (functions : Table String Signature) (pass : Nat)
    (bindings : PerStage (Option String)) : Except ShaderError (PerStage (Option Signature)) :=
  Stage.all.foldlM (fun found stage =>
    match bindings.get stage with
    | none => .ok found
    | some name =>
      match functions.get? name with
      | some signature => .ok (found.set stage (some signature))
      | none => .error (.undefinedEntryPoint pass stage name)) (.const none)

/-- End a program block: its pass needs a vertex and a fragment stage. -/
def endProgram (b : Builder) (p : Program) : Except ShaderError Builder := do
  let number := b.passes.length
  -- An undefined function is reported before a stage that is missing.
  let found ← entryPoints b.functions number p.bindings
  if found.vertex.isNone then .error (.missingEntryPoint number .vertex)
  else if found.fragment.isNone then .error (.missingEntryPoint number .fragment)
  else
    .ok { b with
      program := none
      hasMismatchedBraces := b.hasMismatchedBraces || p.depth != 0
      passes := b.passes ++ [⟨found, p.keywords, p.lightMode⟩] }

/-- Read a line of a program block. -/
def programLine (b : Builder) (p : Program) (line : String) : Except ShaderError Builder :=
  if Include.isBlockEnd line then b.endProgram p
  else if Region.Control.ofLine line != .plain then .ok b
  else
    let fed := p.filter.feed line
    let p := { p with filter := fed.filter }
    match fed.feed, Directive.isMarked line with
    | .consumed, true =>
      .ok { b with program := some { p with capture := p.capture.addDirective line } }
    | .consumed, false => .ok { b with program := some p }
    | .live, true =>
      let (b, p) := b.directiveLine { p with capture := p.capture.addLiveDirective line } line
      .ok { b with program := some p }
    | .live, false =>
      (b.liveLine p line).map fun (b, p) => { b with program := some p }

/-! ## The walk -/

/-- Read one event of a walk.  Includes are expanded in live parts of program blocks only. -/
def event (s : Include.Sources) (b : Builder) (w : Include.Walk) :
    Include.Event → Except ShaderError (Builder × Include.Walk)
  | .line _ text =>
    let read :=
      match b.program with
      | some p => b.programLine p text
      | none => b.outerLine text
    read.map (·, w)
  | .include_ _ directive target =>
    match b.program with
    | none => .ok (b, w)
    | some p =>
      let fed := p.filter.feed directive
      let b := { b with program := some { p with filter := fed.filter } }
      -- A file that was refused needs no second reading.
      if fed.feed = .live && target.isSome then .ok (b, (w.descend s).2) else .ok (b, w)
  | .endInclude .. => .ok (b, w)

/-- The model at the end of the walk.  A program block that is still open ends here. -/
def finish (b : Builder) (path : String) (s : Include.Sources) (repeats : Nat) :
    Except ShaderError Shader := do
  let b ← match b.program with
    | some p => b.endProgram p
    | none => .ok b
  if b.depth != 0 then .error (.unbalancedBraces b.depth)
  else
    let name := b.name.getD ""
    let shader : Shader := { Shader.empty with
      name := if name = "" then Include.fileStem path else name
      path
      status := .complete
      sources := s
      passes := b.passes
      functions := b.functions
      keywords := b.keywords
      hasTessellation := b.hasTessellation
      disablesBatching := b.disablesBatching
      hasTextureMacros := b.hasTextureMacros
      hasMismatchedBraces := b.hasMismatchedBraces
      repeatedIncludes := repeats }
    let shader := b.properties.foldl Shader.insertProperty shader
    .ok (b.sites.foldl (fun shader (name, site) => shader.addSite name site) shader)

end Builder

namespace Shader

/-- Read the shader of a path, or say why it cannot be read. -/
def read? (p : Project) (path : String) : Except ShaderError Shader := do
  let s ← Include.Sources.load p path
  let (b, w) ← Include.Walk.fold s .endlessWalk (Builder.event s) s.walkLimit .new (.start s)
  b.finish path s w.repeats

/-- Read the shader of a path; one that cannot be read is given with its error. -/
def read (p : Project) (path : String) : Shader :=
  match read? p path with
  | .ok shader => shader
  | .error e => failed path e

end Shader

end ShaderMerge
