import ShaderMerge.Include.Walk
import ShaderMerge.Region.Filter

/-!
# The text of a shader, block by block

`Sources.pieces?` reads the sources of a shader by recursion over their lines.  It gives the lines
outside of program blocks, and each program block with the shared blocks replayed at its start and
every available include expanded where it is met first in live text.  It is the yardstick for a
`Walk`, which keeps a stack of files and has to be told where to descend.

What is live is up to a `Guide`, which reads the lines of a block one after the other.  A shared
block that itself opens a program block replays itself for ever, so the recursion has a depth; one
that suffices does not matter (`Sources.read_mono`).
-/

namespace ShaderMerge.Include

/-- What decides which includes of a program block are expanded. -/
structure Guide (γ : Type) where
  /-- The state in front of the block of a number. -/
  start : Nat → γ
  /-- The state behind a line of the block. -/
  read : γ → String → γ
  /-- Whether the next line stands in live text. -/
  isLive : γ → Bool

/-- A part of the text of a shader. -/
inductive Piece where
  /-- A line outside of program blocks. -/
  | line (text : String)
  /-- A program block: its number, the line that starts it, its lines, and the line that ends it if
  there is one. -/
  | block (number : Nat) (first : String) (lines : List String) (last : Option String)
deriving DecidableEq, Repr

/-- A program block that is being read. -/
structure OpenBlock (γ : Type) where
  /-- The number of the block. -/
  number : Nat
  /-- The line that starts it. -/
  first : String
  /-- Its lines so far. -/
  lines : List String
  /-- The state of the guide behind them. -/
  state : γ

/-- The text of a shader so far. -/
structure Document (γ : Type) where
  /-- The finished pieces. -/
  pieces : List Piece
  /-- The program block that is being read. -/
  opened : Option (OpenBlock γ)
  /-- The number of program blocks so far. -/
  blocks : Nat

variable {γ : Type}

namespace Document

/-- A document in front of the first line. -/
def empty : Document γ := ⟨[], none, 0⟩

/-- Whether an include is expanded here: in live text of a program block. -/
def isLive (G : Guide γ) (d : Document γ) : Bool := d.opened.any fun b => G.isLive b.state

/-- Read a line that is a part of the text.  The directives of regions are none. -/
def keep (G : Guide γ) (d : Document γ) (line : String) : Document γ :=
  if Region.Control.ofLine line ≠ .plain then d
  else
    match d.opened with
    | none => { d with pieces := d.pieces ++ [.line line] }
    | some b =>
      { d with opened := some { b with lines := b.lines ++ [line], state := G.read b.state line } }

/-- Read a line that starts a program block. -/
def start (G : Guide γ) (d : Document γ) (line : String) : Document γ :=
  match d.opened with
  | none => { d with opened := some ⟨d.blocks, line, [], G.start d.blocks⟩, blocks := d.blocks + 1 }
  | some _ => d.keep G line

/-- Read a line that ends a block. -/
def stop (G : Guide γ) (d : Document γ) (line : String) : Document γ :=
  match d.opened with
  | none => d.keep G line
  | some b =>
    { d with pieces := d.pieces ++ [.block b.number b.first b.lines (some line)], opened := none }

/-- The pieces at the end of the text. -/
def finish (d : Document γ) : List Piece :=
  d.pieces ++ (d.opened.map fun b => Piece.block b.number b.first b.lines none).toList

end Document

/-- What is known between two lines. -/
structure Reading (γ : Type) where
  /-- The text so far. -/
  document : Document γ
  /-- The shared blocks captured so far. -/
  shared : List (List String)
  /-- The files asked for since the last boundary of a block. -/
  visited : NameSet

namespace Reading

/-- The file to expand in the place of a line, if the line includes an available file in live
text. -/
def wanted? (s : Sources) (G : Guide γ) (r : Reading γ) (line : String) : Option String :=
  if r.document.isLive G then (target? line).filter s.files.contains else none

/-- Ask for a file. -/
def visit (r : Reading γ) (file : String) : Reading γ :=
  { r with visited := r.visited.add file }

/-- Read a line that neither opens nor captures a shared block, given how the lines of a file are
read under the files that are open there. -/
def line (s : Sources) (G : Guide γ)
    (inside : (String → Bool) → Reading γ → List String → Option (Reading γ))
    (isOpen : String → Bool) (r : Reading γ) (line : String) : Option (Reading γ) :=
  if isProgramStart line then
    r.shared.foldlM (inside fun file => s.main = file || isOpen file)
      { r with document := r.document.start G line, visited := ∅ }
  else if isBlockEnd line then some { r with document := r.document.stop G line, visited := ∅ }
  else
    match r.wanted? s G line with
    | none => some { r with document := r.document.keep G line }
    | some target =>
      if r.visited.contains target || isOpen target then some (r.visit target)
      else
        inside (fun file => target = file || isOpen file) (r.visit target)
          ((s.files.get? target).getD [])

end Reading

namespace Sources

/-- Read lines one after the other, to a depth of the recursion, under the files that are open. -/
def read (s : Sources) (G : Guide γ) :
    Nat → (String → Bool) → Reading γ → List String → Option (Reading γ)
  | 0, _, _, _ => none
  | _ + 1, _, r, [] => some r
  | depth + 1, isOpen, r, line :: rest =>
    if isSharedStart line then
      read s G depth isOpen
        { r with shared := r.shared ++ [rest.takeWhile (!isBlockEnd ·)] }
        ((rest.dropWhile (!isBlockEnd ·)).drop 1)
    else
      (r.line s G (read s G depth) isOpen line).bind fun r => read s G depth isOpen r rest

/-- The text of a shader, with includes expanded where a guide finds live text; `none` if the depth
does not suffice. -/
def pieces? (s : Sources) (G : Guide γ) (depth : Nat) : Option (List Piece) :=
  (s.read G depth (s.main = ·) ⟨.empty, [], ∅⟩ s.mainLines).map (·.document.finish)

end Sources

/-! ## The depth of the recursion -/

theorem foldlM_mono {α β : Type} {f f' : β → α → Option β}
    (h : ∀ b a b', f b a = some b' → f' b a = some b') {l : List α} {b b' : β}
    (hfold : l.foldlM f b = some b') : l.foldlM f' b = some b' := by
  induction l generalizing b with
  | nil => exact hfold
  | cons a rest ih =>
    rw [List.foldlM_cons, Option.bind_eq_bind, Option.bind_eq_some_iff] at hfold ⊢
    obtain ⟨b₁, hfirst, hrest⟩ := hfold
    exact ⟨b₁, h b a b₁ hfirst, ih hrest⟩

variable {s : Sources} {G : Guide γ} {isOpen : String → Bool} {r r' : Reading γ}

theorem Reading.line_mono
    {inside inside' : (String → Bool) → Reading γ → List String → Option (Reading γ)}
    (h : ∀ o r lines r', inside o r lines = some r' → inside' o r lines = some r')
    {text : String} (hline : r.line s G inside isOpen text = some r') :
    r.line s G inside' isOpen text = some r' := by
  rw [Reading.line] at hline ⊢
  split at hline
  · rename_i hstart
    rw [if_pos hstart]
    exact foldlM_mono (fun r lines r' => h _ r lines r') hline
  · rename_i hstart
    rw [if_neg hstart]
    split at hline
    · rename_i hend
      rw [if_pos hend]
      exact hline
    · rename_i hend
      rw [if_neg hend]
      cases hwanted : r.wanted? s G text with
      | none =>
        rw [hwanted] at hline
        exact hline
      | some target =>
        rw [hwanted] at hline
        dsimp only at hline ⊢
        by_cases hagain : (r.visited.contains target || isOpen target) = true
        · rw [if_pos hagain] at hline ⊢
          exact hline
        · rw [if_neg hagain] at hline ⊢
          exact h _ _ _ _ hline

namespace Sources

theorem read_succ {depth : Nat} {lines : List String}
    (h : s.read G depth isOpen r lines = some r') :
    s.read G (depth + 1) isOpen r lines = some r' := by
  induction depth generalizing isOpen r r' lines with
  | zero => cases h
  | succ depth ih =>
    cases lines with
    | nil => exact h
    | cons line rest =>
      rw [read] at h ⊢
      by_cases hshared : isSharedStart line = true
      · rw [if_pos hshared] at h ⊢
        exact ih h
      · rw [if_neg hshared, Option.bind_eq_some_iff] at h ⊢
        obtain ⟨r₁, hfirst, hrest⟩ := h
        exact ⟨r₁, Reading.line_mono (fun o r lines r' => ih) hfirst, ih hrest⟩

/-- A depth that suffices may be exceeded. -/
theorem read_mono {depth depth' : Nat} (hle : depth ≤ depth') {lines : List String}
    (h : s.read G depth isOpen r lines = some r') : s.read G depth' isOpen r lines = some r' := by
  induction hle with
  | refl => exact h
  | step _ ih => exact read_succ ih

/-- Depths that suffice give the same text. -/
theorem pieces?_unique {depth depth' : Nat} {pieces pieces' : List Piece}
    (h : s.pieces? G depth = some pieces) (h' : s.pieces? G depth' = some pieces') :
    pieces = pieces' := by
  obtain ⟨r, hread, rfl⟩ := Option.map_eq_some_iff.1 h
  obtain ⟨r', hread', rfl⟩ := Option.map_eq_some_iff.1 h'
  have hsame := read_mono (Nat.le_max_left depth depth') hread
  rw [read_mono (Nat.le_max_right depth depth') hread'] at hsame
  rw [Option.some.inj hsame]

end Sources

end ShaderMerge.Include
