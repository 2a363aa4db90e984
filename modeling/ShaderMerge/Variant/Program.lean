import ShaderMerge.Condition.Filter
import ShaderMerge.Include.Line
import ShaderMerge.LightMode
import ShaderMerge.Variant.EntryPoint
import ShaderMerge.Variant.Substitution

/-!
# Writing a program block

A `Program` is a program block of a variant while its lines are read.  Each line gives the lines
that are written for it.  Signatures of entry points that are to be written anew are held back
until it is known whether a body follows, and declarations inside a constant buffer that no longer
belong there until the buffer ends.

`Program.line` reads one line and `Program.finish` ends the block, which fails if its braces are
open or if one of its entry points has not been seen.
-/

namespace ShaderMerge.Variant

/-- The symbol that tells the code of a shader that it is part of a variant. -/
def variantSymbol : String := "OPTIMIZER_ENABLED"

/-- A signature that is being held back. -/
structure Pending where
  /-- The stage of the entry point. -/
  stage : Stage
  /-- The lines so far. -/
  lines : List String
  /-- The number of open parentheses. -/
  depth : Int
deriving DecidableEq, Repr

/-- A program block that is being written. -/
structure Program where
  /-- The number of the block in the shader. -/
  index : Nat
  /-- What decides its conditional groups. -/
  filter : Condition.Filter
  /-- What its stages do with the packed number. -/
  plan : Plan
  /-- The stages of the entry points to write anew, by the names of their functions. -/
  entries : Table String Stage
  /-- The stages whose entry points have been written. -/
  found : List Stage
  /-- The number of open braces. -/
  depth : Int
  /-- The number of open braces around the declarations of the open constant buffer. -/
  buffer : Option Int
  /-- Whether the next opening brace opens a constant buffer. -/
  bufferAnnounced : Bool
  /-- The declarations held back until the constant buffer ends. -/
  deferred : List String
  /-- The signature that is being held back. -/
  pending : Option Pending
  /-- What is edited in the body being read, and the number of braces open around it. -/
  body : Option (BodyEdit × Int)
  /-- The declared properties that each entry point has to set. -/
  declared : List String
  /-- The carriers that have been defined. -/
  carriers : List CarrierRole

namespace Program

/-! ## The start -/

/-- What is known of symbols in a block: the light mode counts least and the options most. -/
def seed (o : Options) (index : Nat) (pass : Pass) : List (String × Bool) :=
  LightMode.defines pass.lightMode ++ [(variantSymbol, true)] ++ o.passDefines index

/-- The stages of the entry points to write anew; of several with one function the last
counts. -/
def entriesOf (plan : Plan) (pass : Pass) : Table String Stage :=
  Table.ofList ((Stage.all.filter plan.changes).filterMap fun stage =>
    (pass.entryPoints.get stage).map fun s => (s.name, stage))

/-- A block in front of its first line. -/
def new (o : Options) (index : Nat) (pass : Pass) (plan : Plan) : Program where
  index
  filter := (Condition.Filter.new (seed o index pass)).withUsage o.textureUsage
  plan
  entries := entriesOf plan pass
  found := []
  depth := 0
  buffer := none
  bufferAnnounced := false
  deferred := []
  pending := none
  body := none
  declared := []
  carriers := []

/-- The declarations of what the texture arrays need. -/
def texturePrelude (t : Substitution) (pass : Pass) : List String :=
  if t.textures.isEmpty then []
  else
    ["float _OptimizerZero;"]
      ++ t.textures.flatMap (fun texture =>
        texture.declarations ++ texture.sliceDeclaration?.toList)
      ++ if pass.entryPoints.fragment.isSome then SlicedTexture.usageFunction t.textures else []

/-- The declarations at the start of a block. -/
def prelude (t : Substitution) (plan : Plan) (pass : Pass) : List String :=
  ["#define " ++ variantSymbol]
    ++ (if plan.decodes then
        ["static uint optimizerPackedID;", "static uint materialID;", "static uint meshID;"]
      else [])
    ++ ((plan.toggled.map Range.toList).getD []).map
      (fun mesh => "float _IsActiveMesh" ++ toString mesh ++ ";")
    ++ t.registers.uniforms
    ++ texturePrelude t pass
    ++ t.arrays.entries.filterMap fun e => e.2.declaration? e.1

/-! ## Writing -/

/-- Write lines: to the signature that is held back, if there is one, else out. -/
def write (p : Program) (lines : List String) : Program × List String :=
  match p.pending with
  | some pending => ({ p with pending := some { pending with lines := pending.lines ++ lines } }, [])
  | none => (p, lines)

/-! ## Lines of code -/

/-- Whether a declaration at this place is one of the block or of a constant buffer. -/
def isAtDeclarations (p : Program) : Bool := p.body.isNone && p.depth == p.buffer.getD 0

/-- End the constant buffer: the declarations held back come behind it. -/
def closeBuffer (p : Program) : Program × List String :=
  ({ p with buffer := none, deferred := [] }, p.deferred)

/-- Read an opening brace. -/
def openBrace (p : Program) (line : String) : Program × List String :=
  let p := { p with depth := p.depth + 1 }
  if p.bufferAnnounced then ({ p with bufferAnnounced := false, buffer := some p.depth }, [line])
  else (p, [line])

/-- Read a closing brace. -/
def closeBrace (p : Program) (line : String) : Program × List String :=
  let depth := p.depth - 1
  -- The body ends when no more braces are open than around it.
  let p := { p with depth, body := p.body.filter fun body => body.2 < depth }
  if p.buffer = some (depth + 1) then
    let (p, deferred) := p.closeBuffer
    (p, line :: deferred)
  else (p, [line])

/-- The stage of the entry point to write anew whose signature starts on a line. -/
def entryStart? (p : Program) (line : String) : Option Stage :=
  let cs := line.toList
  if p.depth = 0 && cs.getLast? != some ';' then
    (Signature.Header.ofText? cs).bind fun header => p.entries.get? (String.ofList header.name)
  else none

/-- Whether a line starts a constant buffer whose braces follow. -/
def announcesBuffer (line : String) : Bool :=
  (((Text.after? "cbuffer" line.toList).bind Text.afterBlanks?).bind Text.name?).isSome

/-- Read the declaration of a property that has a substitute; `none` for any other line. -/
def declaration? (t : Substitution) (p : Program) (line : String) :
    Option (Program × List String) := do
  let (type, name) ← Substitution.declaration? line
  let declaration ← t.declare? type name
  -- A constant is set where it is declared, all else at the start of each entry point.
  let p := if t.statics.contains name then p else { p with declared := p.declared ++ [name] }
  if p.buffer.isSome then return ({ p with deferred := p.deferred ++ [declaration] }, [])
  else return (p, [declaration])

/-- Read a line that is neither a brace nor part of an entry point. -/
def globalLine (t : Substitution) (p : Program) (line : String) : Program × List String :=
  let p :=
    if p.depth = 0 && announcesBuffer line then { p with bufferAnnounced := true } else p
  if p.isAtDeclarations then
    if t.declaresTexture line then (p, []) else (p.declaration? t line).getD (p, [line])
  else (p, [line])

/-- Read a live statement outside of a signature. -/
def statement (t : Substitution) (p : Program) (line : String) : Program × List String :=
  match p.body with
  | some (edit, _) => (p, [edit.apply line])
  | none =>
    match p.entryStart? line with
    | some stage =>
      let depth := Signature.parenBalance line.toList
      ({ p with pending := some ⟨stage, [line], depth⟩ }, [])
    | none =>
      if (Text.after? "CBUFFER_START" line.toList).isSome then
        ({ p with buffer := some p.depth }, [line])
      else if (Text.after? "CBUFFER_END" line.toList).isSome then
        let (p, deferred) := p.closeBuffer
        (p, line :: deferred)
      else p.globalLine t line

/-! ## Lines of a signature -/

/-- Write an entry point anew when its body starts. -/
def enter (t : Substitution) (p : Program) (pending : Pending) (line : String) :
    Except VariantError (Program × List String) := do
  let entry ← EntryPoint.adapt pending.stage p.plan pending.lines
  -- A carrier is defined in front of the first entry point that refers to it.
  let fresh := entry.carriers.filter fun c => !p.carriers.contains c.role
  return (
    { p with
      pending := none
      found := pending.stage :: p.found
      carriers := fresh.map (·.role) ++ p.carriers
      body := some (entry.body, p.depth)
      depth := p.depth + 1 },
    fresh.flatMap Carrier.definition ++ entry.signature ++ [line] ++ entry.prologue
      ++ t.assignments p.declared)

/-- Read a live line behind the start of a signature.  A semicolon behind the parameters shows
that it was a prototype. -/
def signatureLine (t : Substitution) (p : Program) (pending : Pending) (line : String) :
    Except VariantError (Program × List String) :=
  let longer := pending.lines ++ [line]
  if 0 < pending.depth then
    let depth := pending.depth + Signature.parenBalance line.toList
    .ok ({ p with pending := some { pending with lines := longer, depth } }, [])
  else if line = "\x7b" then p.enter t pending line
  else if line.toList.getLast? = some ';' then .ok ({ p with pending := none }, longer)
  -- Between the parentheses and the body there may still be a semantic.
  else .ok ({ p with pending := some { pending with lines := longer } }, [])

/-! ## All lines -/

/-- Read a line that the filter lets through. -/
def liveLine (t : Substitution) (p : Program) (line : String) :
    Except VariantError (Program × List String) :=
  if Directive.isMarked line then .ok (p.write [line])
  else
    match p.pending with
    | some pending => p.signatureLine t pending line
    | none =>
      .ok (if line = "\x7b" then p.openBrace line
        else if line = "\x7d" || line = "\x7d;" then p.closeBrace line
        else p.statement t line)

/-- Feed a line to the filter of the conditional groups, and write what the filter writes. -/
def feed (p : Program) (line : String) : Program × List String × Feed :=
  let fed := p.filter.feed line
  let (p, written) := { p with filter := fed.filter }.write fed.written
  (p, written, fed.feed)

/-- Read a line. -/
def line (t : Substitution) (p : Program) (line : String) :
    Except VariantError (Program × List String) :=
  match p.feed line with
  | (p, written, .consumed) => .ok (p, written)
  | (p, written, .live) => (p.liveLine t line).map fun (p, more) => (p, written ++ more)

/-! ## The end -/

/-- The first stage, in pipeline order, whose entry point has not been seen. -/
def missingStage? (p : Program) : Option Stage :=
  Stage.all.find? fun stage => p.entries.values.contains stage && !p.found.contains stage

/-- What is reported of a block. -/
def report (p : Program) : List String :=
  let mark := "Program block " ++ toString p.index ++ ": "
  let skipped := p.filter.skippedLines
  p.filter.diagnostics.map (mark ++ ·)
    ++ if skipped = 0 then []
      else [mark ++ "skipped " ++ toString skipped ++ " lines in dead conditional arms"]

/-- End a block: the lines still held back, and the report. -/
def finish (p : Program) : Except VariantError (List String × List String) :=
  if p.depth != 0 then .error (.unbalancedBraces p.index p.depth)
  else
    match p.missingStage? with
    | some stage => .error (.unresolvedEntryPoint p.index stage)
    | none => .ok ((p.pending.map (·.lines)).getD [], p.report)

end Program

end ShaderMerge.Variant
