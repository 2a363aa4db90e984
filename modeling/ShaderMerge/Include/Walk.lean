import ShaderMerge.Include.Sources

/-!
# Walking the sources

A `Walk` goes through the lines of a shader as one stream.  `next` gives the next event: a line,
an include directive, or the end of an included file.  After an include directive whose file is
available, `descend` asks to walk that file next; it is refused if the file has been asked for
since the last boundary of a block, or is being walked.

Shared blocks do not appear where they stand.  They are captured, and all blocks captured so far
are replayed at the start of every program block.

A walk need not end: a shared block that itself opens a program block replays itself for ever.
`fold` runs a walk for at most a given number of steps, and `Sources.walkLimit` is the number that is
used.  `Sources.flatten?` goes on for as long as the walk does.
-/

namespace ShaderMerge.Include

/-- A step of a walk. -/
inductive Event where
  /-- A line of a file. -/
  | line (file text : String)
  /-- An include directive, with the file it names if that is available. -/
  | include_ (file directive : String) (target : Option String)
  /-- The end of a file that was included by a directive. -/
  | endInclude (directive target : String)
deriving DecidableEq, Repr

/-- Lines that are being walked. -/
structure Frame where
  /-- The file they belong to. -/
  file : String
  /-- The lines still to come. -/
  lines : List String
  /-- The directive by which the file was included, if it was. -/
  directive : Option String
deriving DecidableEq, Repr

/-- The state of a walk. -/
structure Walk where
  /-- What is being walked, innermost first. -/
  stack : List Frame
  /-- The file that may be descended into, with its directive. -/
  pending : Option (String × String)
  /-- The shared blocks captured so far, in order. -/
  shared : List (List String)
  /-- The files asked for since the last boundary of a block. -/
  visited : NameSet
  /-- The number of times that a descent was refused. -/
  repeats : Nat
deriving DecidableEq

namespace Walk

/-- The walk at the start of the file of a shader. -/
def start (s : Sources) : Walk := ⟨[⟨s.main, s.mainLines, none⟩], none, [], ∅, 0⟩

/-- The file that is being walked. -/
def currentFile (w : Walk) : Option String := w.stack.head?.map (·.file)

/-- A bound for the steps without an event. -/
def size : List Frame → Nat
  | [] => 0
  | frame :: outer => frame.lines.length + 1 + size outer

/-- The replay of the shared blocks. -/
def replay (s : Sources) (shared : List (List String)) : List Frame :=
  shared.map fun block => ⟨s.main, block, none⟩

/-- The event that the first line of a frame gives, if it is no start of a shared block, and the
walk behind it. -/
def lineEvent (s : Sources) (w : Walk) (frame : Frame) (text : String) (outer : List Frame) :
    Event × Walk :=
  -- Both boundaries of a block forget which files have been asked for.
  if isProgramStart text then
    (.line frame.file text, { w with visited := ∅, stack := replay s w.shared ++ frame :: outer })
  else if isBlockEnd text then
    (.line frame.file text, { w with visited := ∅, stack := frame :: outer })
  else
    match target? text with
    | none => (.line frame.file text, { w with stack := frame :: outer })
    | some target =>
      if s.files.contains target then
        (.include_ frame.file text (some target),
          { w with pending := some (target, text), stack := frame :: outer })
      else (.include_ frame.file text none, { w with stack := frame :: outer })

/-- Go on to the next event. -/
def advance (s : Sources) (w : Walk) : Option (Event × Walk) :=
  match _stack : w.stack with
  | [] => none
  | ⟨file, [], some directive⟩ :: outer =>
    some (.endInclude directive file, { w with stack := outer })
  | ⟨_, [], none⟩ :: outer => advance s { w with stack := outer }
  | ⟨file, text :: rest, directive⟩ :: outer =>
    if isSharedStart text then
      advance s
        { w with
          shared := w.shared ++ [rest.takeWhile (!isBlockEnd ·)]
          stack := ⟨file, (rest.dropWhile (!isBlockEnd ·)).drop 1, directive⟩ :: outer }
    else some (lineEvent s w ⟨file, rest, directive⟩ text outer)
termination_by size w.stack
decreasing_by
  · simp only [_stack, size, List.length_nil]
    omega
  · have hle := (List.dropWhile_sublist (l := rest) (!isBlockEnd ·)).length_le
    simp only [_stack, size, List.length_cons, List.length_drop]
    omega

/-- The next event and the walk behind it; `none` at the end. -/
def next (s : Sources) (w : Walk) : Option (Event × Walk) :=
  advance s { w with pending := none }

/-- Ask to walk the file of the include directive that was the last event. -/
def descend (s : Sources) (w : Walk) : Bool × Walk :=
  match w.pending with
  | none => (false, w)
  | some (target, directive) =>
    -- The file counts as asked for even if it is refused.
    let again := w.visited.contains target
    let w := { w with pending := none, visited := w.visited.add target }
    if again || w.stack.any (·.file = target) then (false, { w with repeats := w.repeats + 1 })
    else
      match s.files.get? target with
      | none => (false, w)
      | some lines => (true, { w with stack := ⟨target, lines, some directive⟩ :: w.stack })

/-- Run a walk to its end, with a state that each event changes and that may descend.  The walk
gets a number of steps, and `endless` is the error if they do not suffice. -/
def fold {σ ε : Type} (s : Sources) (endless : ε)
    (step : σ → Walk → Event → Except ε (σ × Walk)) :
    Nat → σ → Walk → Except ε (σ × Walk)
  | 0, _, _ => .error endless
  | fuel + 1, state, w =>
    match w.next s with
    | none => .ok (state, w)
    | some (event, w) =>
      match step state w event with
      | .error e => .error e
      | .ok (state, w) => fold s endless step fuel state w

end Walk

namespace Sources

/-- A number of steps that a walk which ends does not reach in practice: every file may be
expanded inside every other one, in each of the blocks of each of them. -/
def walkLimit (s : Sources) : Nat :=
  Nat.pow (s.files.values.flatten.length + 2) (4 * (s.files.size + 2))

/-- What the flattening does with an event: a file that can be expanded is, and its directive
stands behind it; the lines are collected latest first. -/
def flattenStep (s : Sources) (lines : List String) (w : Walk) : Event → List String × Walk
  | .line _ text => (text :: lines, w)
  | .include_ _ directive none => (directive :: lines, w)
  | .include_ _ directive (some _) =>
    match w.descend s with
    | (true, w) => (lines, w)
    | (false, w) => (directive :: lines, w)
  | .endInclude directive _ => (directive :: lines, w)

/-- Flatten what is left of a walk, behind the lines so far.  This goes on for as long as the walk
does. -/
def flattenFrom? (s : Sources) (lines : List String) (w : Walk) : Option (List String × Nat) :=
  match w.next s with
  | none => some (lines.reverse, w.repeats)
  | some (event, w) =>
    let (lines, w) := flattenStep s lines w event
    s |>.flattenFrom? lines w
partial_fixpoint

/-- All lines with every include expanded, and the number of includes that were refused;
`none` if the walk does not end. -/
def flatten? (s : Sources) : Option (List String × Nat) := s.flattenFrom? [] (Walk.start s)

end Sources

end ShaderMerge.Include
