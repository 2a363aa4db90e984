import ShaderMerge.Table
import ShaderMerge.Text.Scan

/-!
# Texture usage conditions

Shaders that know of merging guard the code of a texture property with the condition
`defined(PROP_NAME) || !defined(OPTIMIZER_ENABLED)`.  `guardedSymbol?` recognises exactly this
shape, and `UsageTable` answers it from whether the property is used: the symbol of a property
is `PROP` with the name of the property in upper case.
-/

namespace ShaderMerge.Condition

/-- The symbol that marks a shader as merged. -/
def mergedSymbol : String := "OPTIMIZER_ENABLED"

/-- The text behind `defined` and the parenthesis that must follow it. -/
def afterDefined? (cs : List Char) : Option (List Char) := do
  let cs ← Text.after? "defined" cs
  let cs ← Text.afterChar? '(' (Text.skipBlanks cs)
  return Text.skipBlanks cs

/-- The symbol `PROP…` of a condition of the guarding shape, with or without parentheses at its
two ends. -/
def guardedSymbol? (condition : String) : Option String := do
  let cs := Text.trimmed condition.toList
  let cs := (Text.afterChar? '(' cs).getD cs
  let cs ← afterDefined? (Text.skipBlanks cs)
  let rest ← Text.after? "PROP" cs
  let symbol := "PROP".toList ++ rest.takeWhile Text.isNameChar
  let cs := Text.skipBlanks (rest.dropWhile Text.isNameChar)
  let cs ← Text.afterChar? ')' cs
  let cs ← Text.after? "||" (Text.skipBlanks cs)
  let cs ← Text.afterChar? '!' (Text.skipBlanks cs)
  let cs ← afterDefined? (Text.skipBlanks cs)
  let cs ← Text.after? mergedSymbol cs
  let cs ← Text.afterChar? ')' (Text.skipBlanks cs)
  let cs := Text.skipBlanks cs
  let cs := (Text.afterChar? ')' cs).getD cs
  if cs.isEmpty then some (String.ofList symbol) else none

/-- The upper-case letters of a character, for the letters whose upper case is ASCII.  No other
character can end up in a symbol. -/
def upperLetters (c : Char) : List Char :=
  match c with
  | 'ß' => ['S', 'S']
  | 'ı' => ['I']
  | 'ſ' => ['S']
  | '\uFB00' => ['F', 'F']
  | '\uFB01' => ['F', 'I']
  | '\uFB02' => ['F', 'L']
  | '\uFB03' => ['F', 'F', 'I']
  | '\uFB04' => ['F', 'F', 'L']
  | '\uFB05' => ['S', 'T']
  | '\uFB06' => ['S', 'T']
  | c => [c.toUpper]

/-- The symbol that stands for a texture property in conditions. -/
def usageSymbol (property : String) : String :=
  "PROP" ++ String.ofList (property.toList.flatMap upperLetters)

/-- Whether textures are used, by their symbols. -/
abbrev UsageTable := Table String Bool

/-- The table for texture properties. -/
def UsageTable.ofProperties (usage : Table String Bool) : UsageTable :=
  Table.ofList (usage.entries.map fun e => (usageSymbol e.1, e.2))

end ShaderMerge.Condition
