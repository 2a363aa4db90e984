import ShaderMerge.Text.Scan

/-!
# Lines that shape the stream of sources

An include directive names a file in quotes or angle brackets.  A program block and a shared
block are each opened by one of two words and closed by one of two others.
-/

namespace ShaderMerge.Include

/-- The file that an include directive names. -/
def target? (line : String) : Option String := do
  let cs ← Text.afterChar? '#' line.toList
  let cs ← Text.after? "include" (Text.skipBlanks cs)
  let cs := (Text.after? "_with_pragmas" cs).getD cs
  match Text.skipBlanks cs with
  | c :: rest =>
    if c = '<' || c = '"' then
      let name := rest.takeWhile fun c => c != '>' && c != '"'
      if name.isEmpty || name.length = rest.length then none else some (String.ofList name)
    else none
  | [] => none

/-- Whether a line opens a program block. -/
def isProgramStart (line : String) : Bool := line = "CGPROGRAM" || line = "HLSLPROGRAM"

/-- Whether a line opens a block that is shared by the program blocks after it. -/
def isSharedStart (line : String) : Bool := line = "CGINCLUDE" || line = "HLSLINCLUDE"

/-- Whether a line closes a program block or a shared block. -/
def isBlockEnd (line : String) : Bool := line = "ENDCG" || line = "ENDHLSL"

end ShaderMerge.Include
