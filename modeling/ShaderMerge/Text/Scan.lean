import ShaderMerge.Text.Blank

/-!
# Recognising pieces of a text

Small recognisers on lists of characters, from which the readers of this library are built.
A recogniser takes the text from its start and gives what it read together with the rest, or
`none`.  Each comes with the lemma that the rest is shorter, on which readers that repeat
them end.
-/

namespace ShaderMerge.Text

/-! ## Names -/

/-- The characters a name may start with: ASCII letters and the low line. -/
def isNameStart (c : Char) : Bool :=
  c.isAlpha || c == '_'

/-- The characters a name may go on with: ASCII letters, digits and the low line. -/
def isNameChar (c : Char) : Bool :=
  c.isAlphanum || c == '_'

/-- Read the longest name at the start of the text. -/
def name? : List Char → Option (List Char × List Char)
  | [] => none
  | c :: rest =>
    if isNameStart c then some (c :: rest.takeWhile isNameChar, rest.dropWhile isNameChar)
    else none

/-- The text after a fixed word that it starts with. -/
def after? (word : String) (cs : List Char) : Option (List Char) :=
  if word.toList.isPrefixOf cs then some (cs.drop word.toList.length) else none

/-- The text after one given character. -/
def afterChar? (c : Char) : List Char → Option (List Char)
  | [] => none
  | d :: rest => if d = c then some rest else none

/-- The text after one or more blanks. -/
def afterBlanks? : List Char → Option (List Char)
  | [] => none
  | c :: rest => if isBlank c then some (skipBlanks rest) else none

/-- Read characters that satisfy `p` up to a given closing character, which is left out of
both parts. -/
def until? (close : Char) (cs : List Char) : Option (List Char × List Char) :=
  match cs.dropWhile (· != close) with
  | [] => none
  | _ :: rest => some (cs.takeWhile (· != close), rest)

/-- Cut a text around the first place where `pattern` stands in it. -/
def splitAtFirst? (pattern : List Char) : List Char → Option (List Char × List Char)
  | [] => if pattern.isEmpty then some ([], []) else none
  | c :: rest =>
    if pattern.isPrefixOf (c :: rest) then some ([], (c :: rest).drop pattern.length)
    else (splitAtFirst? pattern rest).map fun (before, after) => (c :: before, after)

/-- Whether `pattern` stands somewhere in the text. -/
def contains (pattern : String) (s : String) : Bool :=
  (splitAtFirst? pattern.toList s.toList).isSome

/-! ## Measures -/

/-- The number of bytes of the UTF-8 form of a text. -/
def byteLength : List Char → Nat
  | [] => 0
  | c :: rest => c.utf8Size + byteLength rest

/-- Cut a text after a number of bytes; a cut inside a character is moved behind it. -/
def splitAtByte : Nat → List Char → List Char × List Char
  | 0, cs => ([], cs)
  | _ + 1, [] => ([], [])
  | n + 1, c :: rest =>
    let (before, after) := splitAtByte (n + 1 - c.utf8Size) rest
    (c :: before, after)

/-! ## Letter case -/

/-- Whether two ASCII words are equal up to the case of their letters. -/
def sameLetters (a b : String) : Bool :=
  a.toList.map Char.toLower == b.toList.map Char.toLower

/-- A string with its ASCII letters in lower case. -/
def lowerLetters (s : String) : String :=
  String.ofList (s.toList.map Char.toLower)

/-! ## Small laws -/

theorem length_lt_of_name? {cs name rest : List Char} (h : name? cs = some (name, rest)) :
    rest.length < cs.length := by
  cases cs with
  | nil => simp [name?] at h
  | cons c ds =>
    simp only [name?] at h
    split at h
    · have hle := (List.dropWhile_sublist (l := ds) isNameChar).length_le
      simp only [Option.some.injEq, Prod.mk.injEq] at h
      rw [← h.2]
      simp only [List.length_cons]
      omega
    · simp at h

/-- Reading a name loses nothing. -/
theorem append_of_name? {cs name rest : List Char} (h : name? cs = some (name, rest)) :
    name ++ rest = cs := by
  cases cs with
  | nil => simp [name?] at h
  | cons c ds =>
    simp only [name?] at h
    split at h
    · simp only [Option.some.injEq, Prod.mk.injEq] at h
      rw [← h.1, ← h.2, List.cons_append, List.takeWhile_append_dropWhile]
    · simp at h

theorem length_lt_of_afterBlanks? {cs rest : List Char} (h : afterBlanks? cs = some rest) :
    rest.length < cs.length := by
  cases cs with
  | nil => simp [afterBlanks?] at h
  | cons c ds =>
    simp only [afterBlanks?] at h
    split at h
    · have hle := length_skipBlanks_le ds
      simp only [Option.some.injEq] at h
      rw [← h]
      simp only [List.length_cons]
      omega
    · simp at h

theorem length_lt_of_afterChar? {c : Char} {cs rest : List Char}
    (h : afterChar? c cs = some rest) : rest.length < cs.length := by
  cases cs with
  | nil => simp [afterChar?] at h
  | cons d ds =>
    simp only [afterChar?] at h
    split at h
    · cases h
      simp
    · simp at h

theorem length_lt_of_until? {close : Char} {cs before rest : List Char}
    (h : until? close cs = some (before, rest)) : rest.length < cs.length := by
  have hle := (List.dropWhile_sublist (l := cs) (· != close)).length_le
  simp only [until?] at h
  split at h
  · simp at h
  · rename_i heq
    simp only [Option.some.injEq, Prod.mk.injEq] at h
    rw [heq] at hle
    simp only [List.length_cons] at hle
    rw [← h.2]
    omega

end ShaderMerge.Text
