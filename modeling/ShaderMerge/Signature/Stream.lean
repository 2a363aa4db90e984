import ShaderMerge.Signature.Function

/-!
# Output streams

A geometry stage writes to a stream of points, lines or triangles.  `Signature.stream?` finds
the parameter that is one, with the type of what is written.
-/

namespace ShaderMerge

/-- The type of the vertices that are written to a parameter, if it is a stream. -/
def Parameter.streamVertex? (p : Parameter) : Option String := do
  let cs := p.type.toList
  let cs ← ["PointStream", "LineStream", "TriangleStream"].findSome? (Text.after? · cs)
  let cs ← Text.afterChar? '<' (Text.skipBlanks cs)
  let (vertex, cs) ← Text.name? (Text.skipBlanks cs)
  let cs ← Text.afterChar? '>' (Text.skipBlanks cs)
  if cs.isEmpty then some (String.ofList vertex) else none

/-- The name of the first parameter that is a stream, and the type of its vertices. -/
def Signature.stream? (s : Signature) : Option (String × String) :=
  s.parameters.findSome? fun p => p.streamVertex?.map (p.name, ·)

end ShaderMerge
