import ShaderMerge.Shader.Builder

/-!
# A cache of shaders

A `ShaderCache` keeps the models of shaders by the path of their files, also the models of those
that cannot be read.  `read` looks a path up and reads the shader only if the cache does not have
it.

Several callers may ask one cache for shaders at the same time.  A call looks its path up and, if the
cache does not have it, reads the shader and puts it in; between the two steps other calls may do
theirs.  `Work` is what such calls have come to, and a schedule says which call takes the next step.
-/

namespace ShaderMerge

/-- Shaders by the paths of their files. -/
abbrev ShaderCache := Table String Shader

namespace ShaderCache

/-- Put a shader in the cache, over the one of the same path. -/
def put (c : ShaderCache) (s : Shader) : ShaderCache := Table.insert c s.path s

/-- The shader of a path, read if the cache does not have it, and the cache afterwards. -/
def read (p : Project) (c : ShaderCache) (path : String) : Shader × ShaderCache :=
  match c.get? path with
  | some s => (s, c)
  | none =>
    let s := Shader.read p path
    (s, c.put s)

/-- The shaders of paths in order, and the cache afterwards. -/
def readAll (p : Project) (c : ShaderCache) : List String → List Shader × ShaderCache
  | [] => ([], c)
  | path :: rest =>
    let (s, c) := read p c path
    let (shaders, c) := readAll p c rest
    (s :: shaders, c)

/-! ## Calls that share a cache -/

/-- How far a call for the shader of a path has come. -/
inductive Call where
  /-- It has not looked the path up. -/
  | waiting (path : String)
  /-- The cache did not have the path; the shader is to be read and put in. -/
  | missed (path : String)
  /-- It has got a shader. -/
  | answered (shader : Shader)
deriving DecidableEq

/-- A cache and the calls that share it. -/
structure Work where
  /-- The cache. -/
  cache : ShaderCache
  /-- The calls in the order of their paths. -/
  calls : List Call
deriving DecidableEq

/-- The next step of a call: the look-up of its path, or the insertion of the shader that is read. -/
def Call.step (parse : String → Shader) (c : ShaderCache) : Call → Option (Call × ShaderCache)
  | waiting path =>
    match c.get? path with
    | some s => some (answered s, c)
    | none => some (missed path, c)
  | missed path => some (answered (parse path), c.put (parse path))
  | answered _ => none

namespace Work

/-- Calls for some paths before their first steps. -/
def start (c : ShaderCache) (paths : List String) : Work := ⟨c, paths.map .waiting⟩

/-- The next step of one of the calls, if there is one. -/
def step (parse : String → Shader) (w : Work) (i : Nat) : Option Work :=
  match w.calls[i]? with
  | none => none
  | some call => (call.step parse w.cache).map fun done => ⟨done.2, w.calls.set i done.1⟩

/-- The steps of a schedule, which says whose step comes next. -/
def run (parse : String → Shader) (w : Work) (schedule : List Nat) : Option Work :=
  schedule.foldlM (step parse) w

/-- Work at which no call has a step left. -/
def IsDone (parse : String → Shader) (w : Work) : Prop := ∀ i, w.step parse i = none

end Work

end ShaderCache

end ShaderMerge
