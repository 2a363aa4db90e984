import ShaderMerge.Directive
import ShaderMerge.Condition.Expr
import ShaderMerge.Condition.Scopes
import ShaderMerge.Condition.Usage

/-!
# Filtering conditional groups

A `Filter` reads lines one after the other and decides the groups `#if … #endif` among them from
what it knows about names.  Of a group that it can decide no directive stays: a live arm keeps
its lines, a dead arm becomes a note that counts them.  A group that it cannot decide keeps its
directives from the first undecided arm on.

`Control.ofLine` says what a line means to the filter, and `Filter.feed` what the filter does
with it: the filter afterwards, the lines to write, and whether the line itself is live and so
left to the caller.  What an arm defines or undefines is known behind the group only if the arm
was certainly taken; what an undecided group touched is unknown behind it.
-/

namespace ShaderMerge

/-- What becomes of a line that was fed to a filter. -/
inductive Feed where
  /-- The line is live and left to the caller. -/
  | live
  /-- The filter has dealt with the line. -/
  | consumed
deriving DecidableEq, Repr

namespace Condition

/-! ## Lines as the filter sees them -/

/-- What a line means to the filter. -/
inductive Control where
  /-- A group opens under a condition. -/
  | openIf (expression : String)
  /-- A group opens if a name is defined. -/
  | openDefined (name : String)
  /-- A group opens if a name is not defined. -/
  | openUndefined (name : String)
  /-- An arm under another condition. -/
  | elseIf (expression : String)
  /-- The last arm. -/
  | otherwise
  /-- The end of a group. -/
  | close
  /-- A name becomes defined. -/
  | define (name : String)
  /-- A name becomes undefined. -/
  | undefine (name : String)
  /-- Any other line. -/
  | plain
deriving DecidableEq, Repr

namespace Control

/-- The name that a definition is about: up to the first blank or parenthesis. -/
def definedName (rest : String) : String :=
  String.ofList ((Text.skipBlanks rest.toList).takeWhile fun c => !Text.isBlank c && c != '(')

/-- The meaning of a line.  A definition without a name is a plain line. -/
def ofLine (line : String) : Control :=
  match Directive.ofLine? line with
  | none => plain
  | some ⟨keyword, rest⟩ =>
    match keyword with
    | "if" => openIf rest
    | "ifdef" => openDefined (Text.trim rest)
    | "ifndef" => openUndefined (Text.trim rest)
    | "elif" => elseIf rest
    | "else" => otherwise
    | "endif" => close
    | "define" => if definedName rest = "" then plain else define (definedName rest)
    | "undef" => if definedName rest = "" then plain else undefine (definedName rest)
    | _ => plain

end Control

/-! ## Open groups -/

/-- What is known of the arm that is being read. -/
inductive Arm where
  /-- It is certainly live. -/
  | taken
  /-- It may be live, and its directive is kept. -/
  | uncertain
  /-- It is certainly dead. -/
  | dead
deriving DecidableEq, Repr

/-- A group that is open. -/
structure Group where
  /-- Whether the group stands in live text. -/
  inLive : Bool
  /-- The arm that is being read. -/
  arm : Arm
  /-- Whether some arm so far was certainly live. -/
  anyTaken : Bool
  /-- Whether a directive of the group has been written. -/
  written : Bool
  /-- The number of lines dropped in the arm that is being read. -/
  skipped : Nat
  /-- The names that arms which may be live have changed. -/
  touched : NameSet
  /-- What the taken arm of a group without written directives changed. -/
  kept : Option Frame
deriving DecidableEq

namespace Group

/-- A group in dead text. -/
def inDeadText : Group := ⟨false, .dead, false, false, 0, ∅, none⟩

/-- A group in live text whose first condition has a value. -/
def opened (value : Truth) : Group :=
  match value with
  | .yes => { inDeadText with inLive := true, arm := .taken, anyTaken := true }
  | .no => { inDeadText with inLive := true }
  | .unknown => { inDeadText with inLive := true, arm := .uncertain, written := true }

/-- The note left in the place of dropped lines. -/
def skipNote (count : Nat) : String := "// " ++ toString count ++ " lines skipped"

/-- End the arm that is being read, given what it changed: the group afterwards, the note to
write, and the number of lines that the note stands for. -/
def endArm (g : Group) (changes : Frame) : Group × List String × Nat :=
  match g.arm with
  | .taken =>
    ({ g with
        touched := NameSet.addAll g.touched changes.keys
        kept := if g.written then g.kept else some changes }, [], 0)
  | .uncertain => ({ g with touched := NameSet.addAll g.touched changes.keys }, [], 0)
  | .dead =>
    if g.skipped = 0 then (g, [], 0)
    else ({ g with skipped := 0 }, [skipNote g.skipped], g.skipped)

end Group

/-! ## The filter -/

/-- A filter between two lines. -/
structure Filter where
  /-- What is known of names here. -/
  scopes : Scopes
  /-- The open groups, innermost first. -/
  groups : List Group
  /-- Whether textures are used. -/
  usage : UsageTable
  /-- The number of lines that notes stand for so far. -/
  skippedLines : Nat
  /-- The conditions that could not be decided, in order. -/
  diagnostics : List String
deriving DecidableEq

/-- The outcome of a line: the filter afterwards, the lines to write, and what becomes of the
line itself. -/
structure Fed (σ : Type) where
  /-- The filter after the line. -/
  filter : σ
  /-- The lines to write. -/
  written : List String
  /-- What becomes of the line. -/
  feed : Feed

/-- How an undecided condition is reported. -/
def undecidedNote (expression : String) : String :=
  "Kept undecidable condition: " ++ Text.trim expression

namespace Filter

/-- A filter with known names before the first line. -/
def new (known : List (String × Bool)) : Filter :=
  ⟨Scopes.new known, [], ∅, 0, []⟩

/-- The filter that knows which texture properties are used. -/
def withUsage (f : Filter) (usage : Table String Bool) : Filter :=
  { f with usage := UsageTable.ofProperties usage }

/-- Whether the next line stands in live text. -/
def isLive (f : Filter) : Bool :=
  match f.groups with
  | [] => true
  | g :: _ => g.inLive && g.arm != .dead

/-- The number of open groups. -/
def depth (f : Filter) : Nat := f.groups.length

/-- Whether a name is defined here. -/
def defined (f : Filter) (name : String) : Truth := f.scopes.get name

/-- The value of a condition here.  A guard of a texture whose use is known has that value. -/
def evaluate (f : Filter) (expression : String) : Truth :=
  match (guardedSymbol? expression).bind f.usage.get? with
  | some used => Truth.ofBool used
  | none => Condition.evaluate expression f.scopes.get

/-- Count a dropped line in the innermost group that stands in live text. -/
def countSkipped : List Group → List Group
  | [] => []
  | g :: outer =>
    if g.inLive then { g with skipped := g.skipped + 1 } :: outer else g :: countSkipped outer

/-- Report a condition that has no known value. -/
def report (f : Filter) (expression : String) (value : Truth) : Filter :=
  if value.isKnown then f
  else { f with diagnostics := f.diagnostics ++ [undecidedNote expression] }

/-- A line that is no part of a group in live text: live, or counted as dropped. -/
def pass (f : Filter) : Fed Filter :=
  if f.isLive then ⟨f, [], .live⟩
  else ⟨{ f with groups := countSkipped f.groups }, [], .consumed⟩

/-- Open a group under a condition with a value; an undecided one keeps its line. -/
def openGroup (f : Filter) (value : Truth) (line : String) : Fed Filter :=
  if f.isLive then
    ⟨{ f with scopes := f.scopes.push, groups := .opened value :: f.groups },
      if value.isKnown then [] else [line], .consumed⟩
  else
    ⟨{ f with groups := .inDeadText :: countSkipped f.groups }, [], .consumed⟩

/-- Start another arm of the innermost group: under a condition, or the last one. -/
def nextArm (f : Filter) (condition : Option String) : Fed Filter :=
  match f.groups with
  | [] => ⟨f, [], .live⟩
  | g :: outer =>
    if !g.inLive then f.pass
    else
      let (changes, scopes) := f.scopes.pop
      let (g, note, count) := g.endArm changes
      -- The condition is read outside the arm that ends: its definitions are out of scope.
      let f :=
        { f with
          scopes := scopes.push, groups := g :: outer, skippedLines := f.skippedLines + count }
      -- Behind a taken arm every arm is dead, whatever its condition says.
      if g.anyTaken then
        ⟨{ f with groups := { g with arm := .dead } :: outer }, note, .consumed⟩
      else
        match condition with
        | none =>
          ⟨{ f with groups := { g with arm := .taken, anyTaken := true } :: outer },
            note ++ (if g.written then ["#else"] else []), .consumed⟩
        | some expression =>
          match f.evaluate expression with
          | .no => ⟨{ f with groups := { g with arm := .dead } :: outer }, note, .consumed⟩
          -- Behind undecided arms, an arm that holds is the last one that can be reached.
          | .yes =>
            ⟨{ f with groups := { g with arm := .taken, anyTaken := true } :: outer },
              note ++ (if g.written then ["#else"] else []), .consumed⟩
          | .unknown =>
            ⟨{ f.report expression .unknown with
                groups := { g with arm := .uncertain, written := true } :: outer },
              note ++ [(if g.written then "#elif " else "#if ") ++ Text.trim expression],
              .consumed⟩

/-- End the innermost group. -/
def closeGroup (f : Filter) : Fed Filter :=
  match f.groups with
  | [] => ⟨f, [], .live⟩
  | g :: outer =>
    if !g.inLive then { f with groups := outer }.pass
    else
      let (changes, scopes) := f.scopes.pop
      let (g, note, count) := g.endArm changes
      -- Of a written group any arm may be the one that counts.
      let known :=
        if g.written then g.touched.keys.map fun name => (name, Truth.unknown)
        else (g.kept.map (·.entries)).getD []
      ⟨{ f with
          scopes := scopes.setAll known, groups := outer, skippedLines := f.skippedLines + count },
        note ++ (if g.written then ["#endif"] else []), .consumed⟩

/-- Note a definition in live text. -/
def define (f : Filter) (name : String) (isDefined : Bool) : Fed Filter :=
  if f.isLive then
    ⟨{ f with scopes := f.scopes.set name (Truth.ofBool isDefined) }, [], .live⟩
  else f.pass

/-- Read one line. -/
def feed (f : Filter) (line : String) : Fed Filter :=
  match Control.ofLine line with
  | .openIf expression =>
    if f.isLive then
      let value := f.evaluate expression
      (f.report expression value).openGroup value line
    else f.openGroup .unknown line
  | .openDefined name => f.openGroup (f.scopes.get name) line
  | .openUndefined name => f.openGroup (f.scopes.get name).not line
  | .elseIf expression => f.nextArm (some expression)
  | .otherwise => f.nextArm none
  | .close => f.closeGroup
  | .define name => f.define name true
  | .undefine name => f.define name false
  | .plain => f.pass

end Filter

end Condition

end ShaderMerge
