import ShaderMerge.Condition.Filter
import ShaderMerge.Region.Comparison

/-!
# Filtering value regions

A region stands between `#ifex CONDITION` and `#endex`.  The `Filter` reads lines one after the
other, removes these directives, and drops a region whose condition fails up to the `#endex`
that matches it, with all that is nested in it; a note counts the lines dropped.
-/

namespace ShaderMerge.Region

/-- A region that is being dropped. -/
structure Dropping where
  /-- The number of regions open inside it. -/
  nested : Nat
  /-- The number of its lines so far. -/
  count : Nat
deriving DecidableEq, Repr

/-- A filter between two lines. -/
structure Filter where
  /-- The known property values. -/
  values : Table String Binary32
  /-- The region that is being dropped, if any. -/
  dropping : Option Dropping
  /-- The number of lines that notes stand for so far. -/
  droppedLines : Nat
  /-- The conditions that could not be decided, in order. -/
  diagnostics : List String
deriving DecidableEq

/-- What a line means to the filter. -/
inductive Control where
  /-- A region opens. -/
  | openRegion (condition : String)
  /-- A region ends. -/
  | closeRegion
  /-- Any other line. -/
  | plain
deriving DecidableEq, Repr

/-- The meaning of a line. -/
def Control.ofLine (line : String) : Control :=
  match Directive.ofLine? line with
  | some ⟨"ifex", condition⟩ => openRegion condition
  | some ⟨"endex", _⟩ => closeRegion
  | _ => plain

/-- The note left in the place of a dropped region. -/
def dropNote (count : Nat) : String := "// #ifex dropped " ++ toString count ++ " lines"

/-- How an undecided condition is reported. -/
def undecidedNote (condition : String) : String := "Ignored #ifex " ++ Text.trim condition

namespace Filter

/-- A filter with known property values before the first line. -/
def new (values : Table String Binary32) : Filter := ⟨values, none, 0, []⟩

/-- Whether the filter is inside a dropped region. -/
def isDropping (f : Filter) : Bool := f.dropping.isSome

/-- Read a line inside a dropped region. -/
def drop (f : Filter) (region : Dropping) (control : Control) : Condition.Fed Filter :=
  match control, region.nested with
  | .openRegion _, n => ⟨{ f with dropping := some ⟨n + 1, region.count + 1⟩ }, [], .consumed⟩
  | .closeRegion, 0 =>
    ⟨{ f with dropping := none, droppedLines := f.droppedLines + region.count },
      [dropNote region.count], .consumed⟩
  | .closeRegion, n + 1 => ⟨{ f with dropping := some ⟨n, region.count + 1⟩ }, [], .consumed⟩
  | .plain, n => ⟨{ f with dropping := some ⟨n, region.count + 1⟩ }, [], .consumed⟩

/-- Read one line. -/
def feed (f : Filter) (line : String) : Condition.Fed Filter :=
  let control := Control.ofLine line
  match f.dropping with
  | some region => f.drop region control
  | none =>
    match control with
    | .plain => ⟨f, [], .live⟩
    | .closeRegion => ⟨f, [], .consumed⟩
    | .openRegion condition =>
      match decide condition f.values with
      | .keep => ⟨f, [], .consumed⟩
      | .drop => ⟨{ f with dropping := some ⟨0, 0⟩ }, [], .consumed⟩
      | .undecided =>
        ⟨{ f with diagnostics := f.diagnostics ++ [undecidedNote condition] }, [], .consumed⟩

end Filter

end ShaderMerge.Region
