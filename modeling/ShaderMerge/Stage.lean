/-!
# Pipeline stages

The five programmable stages, and values given for each of them.
-/

namespace ShaderMerge

/-- A programmable stage of the pipeline. -/
inductive Stage where
  | vertex
  | hull
  | domain
  | geometry
  | fragment
deriving DecidableEq, Repr

namespace Stage

/-- The stages in pipeline order. -/
def all : List Stage := [vertex, hull, domain, geometry, fragment]

/-- The word that binds a function to the stage, which is also its name in messages. -/
def name : Stage → String
  | vertex => "vertex"
  | hull => "hull"
  | domain => "domain"
  | geometry => "geometry"
  | fragment => "fragment"

/-- The stage of a binding word. -/
def ofName? (word : String) : Option Stage := all.find? (·.name = word)

/-- Whether the stage takes part in tessellation. -/
def isTessellation : Stage → Bool
  | hull => true
  | domain => true
  | _ => false

end Stage

/-- A value for each stage. -/
structure PerStage (α : Type) where
  vertex : α
  hull : α
  domain : α
  geometry : α
  fragment : α
deriving DecidableEq, Repr

namespace PerStage

variable {α : Type}

/-- One value for all stages. -/
def const (a : α) : PerStage α := ⟨a, a, a, a, a⟩

/-- The value of a stage. -/
def get (p : PerStage α) : Stage → α
  | .vertex => p.vertex
  | .hull => p.hull
  | .domain => p.domain
  | .geometry => p.geometry
  | .fragment => p.fragment

/-- The values with another one for a stage. -/
def set (p : PerStage α) (s : Stage) (a : α) : PerStage α :=
  match s with
  | .vertex => { p with vertex := a }
  | .hull => { p with hull := a }
  | .domain => { p with domain := a }
  | .geometry => { p with geometry := a }
  | .fragment => { p with fragment := a }

theorem get_set (p : PerStage α) (s t : Stage) (a : α) :
    (p.set s a).get t = if t = s then a else p.get t := by
  cases s <;> cases t <;> rfl

end PerStage

end ShaderMerge
