import ShaderMerge.Number.Shortest
import ShaderMerge.Text.Scan

/-!
# Lines that declare properties

A property is declared by tags in square brackets, its name, and in parentheses the display
name in quotes and a type word, for example `[Gamma] _Main ("Main", Color) = (1,1,1,1)`.
`PropertyHead.ofText?` reads the part from the name to the type word and gives all of its
pieces, blanks included, so that a line can be written again with some of them changed.
-/

namespace ShaderMerge

namespace PropertyTag

/-- Read the rest of a tag up to its closing bracket.  A bracket inside opens a part that goes
up to the next closing bracket. -/
def body? (cs : List Char) : Option (List Char × List Char) :=
  match cs with
  | [] => none
  | c :: rest =>
    if c = ']' then some ([], rest)
    else if c = '[' then
      match _found : Text.until? ']' rest with
      | some (nested, after) =>
        (body? after).map fun (body, rest) => ('[' :: nested ++ ']' :: body, rest)
      | none => none
    else (body? rest).map fun (body, rest) => (c :: body, rest)
termination_by cs.length
decreasing_by
  · have := Text.length_lt_of_until? _found
    simp only [List.length_cons]
    omega
  · simp

theorem length_lt_of_body? {cs body rest : List Char} (h : body? cs = some (body, rest)) :
    rest.length < cs.length := by
  fun_induction body? cs generalizing body rest with
  | case1 => simp at h
  | case2 cs =>
    simp only [Option.some.injEq, Prod.mk.injEq] at h
    simp [h.2]
  | case3 cs nested after found _ ih =>
    obtain ⟨⟨b, r⟩, hbr, heq⟩ := Option.map_eq_some_iff.1 h
    simp only [Prod.mk.injEq] at heq
    have h₁ := Text.length_lt_of_until? found
    have h₂ := ih hbr
    rw [← heq.2]
    simp only [List.length_cons]
    omega
  | case4 => simp at h
  | case5 c cs _ _ ih =>
    obtain ⟨⟨b, r⟩, hbr, heq⟩ := Option.map_eq_some_iff.1 h
    simp only [Prod.mk.injEq] at heq
    have h₂ := ih hbr
    rw [← heq.2]
    simp only [List.length_cons]
    omega

/-- Read a tag with the blanks behind it: its text, what stands between its brackets, and the
rest. -/
def read? (cs : List Char) : Option (List Char × List Char × List Char) :=
  match cs with
  | '[' :: inner =>
    (body? inner).map fun (body, after) =>
      ('[' :: body ++ ']' :: after.takeWhile Text.isBlank, body, Text.skipBlanks after)
  | _ => none

theorem length_lt_of_read? {cs text body rest : List Char}
    (h : read? cs = some (text, body, rest)) : rest.length < cs.length := by
  unfold read? at h
  split at h
  · obtain ⟨⟨b, after⟩, hbody, heq⟩ := Option.map_eq_some_iff.1 h
    simp only [Prod.mk.injEq] at heq
    have h₁ := length_lt_of_body? hbody
    have h₂ := Text.length_skipBlanks_le after
    rw [← heq.2.2]
    simp only [List.length_cons]
    omega
  · simp at h

/-- Read all tags at the start of a text: their text, what stands between their brackets, and
the rest. -/
def readAll (cs : List Char) : List Char × List (List Char) × List Char :=
  match _found : read? cs with
  | some (text, body, rest) =>
    let (texts, bodies, rest) := readAll rest
    (text ++ texts, body :: bodies, rest)
  | none => ([], [], cs)
termination_by cs.length
decreasing_by exact length_lt_of_read? _found

end PropertyTag

/-- The part of a declaration from the name to the type word, and the rest of the line. -/
structure PropertyHead where
  /-- The name. -/
  name : List Char
  /-- The text between the name and the display name, up to behind the opening quote. -/
  opening : List Char
  /-- The display name as it is written. -/
  displayName : List Char
  /-- The text between the display name and the type word, from the closing quote on. -/
  gap : List Char
  /-- The type word. -/
  typeWord : List Char
  /-- The rest of the line. -/
  rest : List Char
deriving DecidableEq, Repr

namespace PropertyHead

/-- Read a string up to its closing quote; a backslash takes the next character with it, which
must not be a line feed. -/
def quoted? : List Char → Option (List Char × List Char)
  | [] => none
  | '"' :: rest => some ([], rest)
  | '\\' :: c :: rest =>
    if c = '\n' then none else (quoted? rest).map fun (body, rest) => ('\\' :: c :: body, rest)
  | c :: rest =>
    if c = '\\' then none else (quoted? rest).map fun (body, rest) => (c :: body, rest)

/-- A given character between blanks: the text read and the rest. -/
def mark? (c : Char) (cs : List Char) : Option (List Char × List Char) := do
  let rest ← Text.afterChar? c (Text.skipBlanks cs)
  return (cs.takeWhile Text.isBlank ++ c :: rest.takeWhile Text.isBlank, Text.skipBlanks rest)

/-- Read the head of a declaration. -/
def ofText? (cs : List Char) : Option PropertyHead := do
  let (name, cs) ← Text.name? cs
  let (opening, cs) ← mark? '(' cs
  let cs ← Text.afterChar? '"' cs
  let (displayName, cs) ← quoted? cs
  let (comma, cs) ← mark? ',' cs
  let typeWord := cs.takeWhile Char.isAlphanum
  if typeWord.isEmpty then none
  return {
    name
    opening := opening ++ ['"']
    displayName
    gap := '"' :: comma
    typeWord
    rest := cs.dropWhile Char.isAlphanum }

/-- The text between the name and the type word. -/
def separator (h : PropertyHead) : List Char := h.opening ++ h.displayName ++ h.gap

/-- The text of the declaration from the name on. -/
def text (h : PropertyHead) : List Char := h.name ++ h.separator ++ h.typeWord ++ h.rest

end PropertyHead

/-- A line that declares a property, in pieces. -/
structure PropertyLine where
  /-- The tags, with the blanks behind them. -/
  tags : List Char
  /-- The part behind the tags. -/
  head : PropertyHead
deriving DecidableEq, Repr

namespace PropertyLine

/-- Read a line; nothing behind the type word may be a line feed. -/
def ofText? (cs : List Char) : Option PropertyLine :=
  let (tags, _, rest) := PropertyTag.readAll cs
  ((PropertyHead.ofText? rest).filter fun head => !head.rest.contains '\n').map (⟨tags, ·⟩)

/-- The text of the line. -/
def text (l : PropertyLine) : List Char := l.tags ++ l.head.text

/-- The line that declares a texture array in the place of the texture. -/
def toTextureArray (l : PropertyLine) : PropertyLine :=
  { l with
    head := { l.head with
      name := l.head.name ++ "_Array".toList, typeWord := "2DArray".toList } }

/-- The declaration of a float that users do not see. -/
def hiddenFloat (name displayName : String) (default : Binary32) : String :=
  "[HideInInspector] " ++ name ++ " (\"" ++ displayName ++ "\", Float) = "
    ++ NumberLayout.plain.text default

end PropertyLine

end ShaderMerge
