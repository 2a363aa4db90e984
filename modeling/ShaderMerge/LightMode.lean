import ShaderMerge.Text.Scan

/-!
# Light modes

A pass may name a light mode in its tags.  For the modes of the table the engine defines one
symbol each, so that a pass with such a mode knows of every symbol of the table whether it is
defined.
-/

namespace ShaderMerge.LightMode

/-- The light modes and their symbols. -/
def symbols : List (String × String) :=
  [("ForwardBase", "UNITY_PASS_FORWARDBASE"),
   ("ForwardAdd", "UNITY_PASS_FORWARDADD"),
   ("ShadowCaster", "UNITY_PASS_SHADOWCASTER"),
   ("Deferred", "UNITY_PASS_DEFERRED"),
   ("Meta", "UNITY_PASS_META")]

/-- What a pass of a light mode knows about the symbols, in the order of the table.  A pass
without a mode, or with another one, knows nothing.  Letter case does not count. -/
def defines (mode : Option String) : List (String × Bool) :=
  match mode with
  | none => []
  | some mode =>
    if symbols.any fun entry => Text.sameLetters entry.1 mode then
      symbols.map fun entry => (entry.2, Text.sameLetters entry.1 mode)
    else []

end ShaderMerge.LightMode
