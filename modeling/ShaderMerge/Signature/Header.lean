import ShaderMerge.Text.Scan

/-!
# The header of a signature

A header is the start of a line that declares a function: attributes in square brackets,
modifiers, the return type, the name, and an opening parenthesis.  `Header.ofText?` finds it.
The parts of a header and the rest of the text append to the whole text.
-/

namespace ShaderMerge.Signature

/-- The parts of a text that starts with the header of a function. -/
structure Header where
  /-- The attributes and modifiers, with the blanks behind them. -/
  lead : List Char
  /-- The return type, with its type arguments. -/
  returnType : List Char
  /-- The blanks between the return type and the name. -/
  gap : List Char
  /-- The name of the function. -/
  name : List Char
  /-- The blanks between the name and the parenthesis. -/
  space : List Char
  /-- The text behind the opening parenthesis. -/
  rest : List Char
deriving DecidableEq, Repr

namespace Header

/-- The text of a header up to behind its opening parenthesis. -/
def front (h : Header) : List Char :=
  h.lead ++ h.returnType ++ h.gap ++ h.name ++ h.space ++ ['(']

/-- The whole text that the header starts. -/
def text (h : Header) : List Char := h.front ++ h.rest

end Header

/-- Words that steer the flow of a program and never name a function or a type. -/
def flowWords : List String :=
  ["if", "for", "while", "switch", "return", "do", "else"]

/-- Words that stand where a return type may, but are none. -/
def nonTypeWords : List String :=
  ["return", "else", "new", "delete", "case", "typedef", "struct", "using", "goto", "define",
   "cbuffer", "tbuffer", "sizeof"]

/-- Split off the attributes at the start of a text. -/
def attributes (cs : List Char) : List Char × List Char :=
  match cs with
  | '[' :: inner =>
    match _found : Text.until? ']' inner with
    | some (body, after) =>
      let (more, rest) := attributes (Text.skipBlanks after)
      ('[' :: body ++ ']' :: after.takeWhile Text.isBlank ++ more, rest)
    | none => ([], cs)
  | _ => ([], cs)
termination_by cs.length
decreasing_by
  have h₁ := Text.length_lt_of_until? _found
  have h₂ := Text.length_skipBlanks_le after
  simp only [List.length_cons]
  omega

/-- The text behind a modifier and the blanks that must follow it. -/
def afterModifier? (cs : List Char) : Option (List Char) :=
  (["inline", "static", "precise"].findSome? (Text.after? · cs)).bind Text.afterBlanks?

theorem length_lt_of_afterModifier? {cs rest : List Char} (h : afterModifier? cs = some rest) :
    rest.length < cs.length := by
  obtain ⟨after, hafter, hblanks⟩ := Option.bind_eq_some_iff.1 h
  obtain ⟨word, -, hword⟩ := List.exists_of_findSome?_eq_some hafter
  have h₁ := Text.length_lt_of_afterBlanks? hblanks
  simp only [Text.after?] at hword
  split at hword
  · simp only [Option.some.injEq] at hword
    rw [← hword, List.length_drop] at h₁
    omega
  · simp at hword

/-- The type arguments at the start of a text, if there are any. -/
def typeArguments (cs : List Char) : List Char × List Char :=
  match cs with
  | '<' :: inner =>
    match Text.until? '>' inner with
    | some (arguments, rest) => ('<' :: arguments ++ ['>'], rest)
    | none => ([], cs)
  | _ => ([], cs)

/-- A return type, a name and an opening parenthesis, behind a given lead. -/
def bareHeader? (lead cs : List Char) : Option Header := do
  let (word, cs) ← Text.name? cs
  let (arguments, cs) := typeArguments cs
  let gap := cs.takeWhile Text.isBlank
  if gap.isEmpty then none
  let (name, cs) ← Text.name? (Text.skipBlanks cs)
  let rest ← Text.afterChar? '(' (Text.skipBlanks cs)
  return ⟨lead, word ++ arguments, gap, name, cs.takeWhile Text.isBlank, rest⟩

/-- The header of a text behind its attributes.  As many words as possible are read as
modifiers; if that leaves too little for a header, the last of them is the return type. -/
def modifiedHeader? (lead cs : List Char) : Option Header :=
  match _found : afterModifier? cs with
  | some rest =>
    match modifiedHeader? (lead ++ cs.take (cs.length - rest.length)) rest with
    | some header => some header
    | none => bareHeader? lead cs
  | none => bareHeader? lead cs
termination_by cs.length
decreasing_by exact length_lt_of_afterModifier? _found

/-- Whether a header names no function after all, because of one of the reserved words. -/
def Header.isReserved (h : Header) : Bool :=
  let returnType := String.ofList h.returnType
  nonTypeWords.contains returnType || flowWords.contains returnType
    || flowWords.contains (String.ofList h.name)

/-- The header at the start of a text. -/
def Header.ofText? (cs : List Char) : Option Header :=
  let (lead, rest) := attributes cs
  (modifiedHeader? lead rest).filter (!·.isReserved)

end ShaderMerge.Signature
