/-!
# Blank characters

`isBlank` is the White_Space property: twenty-five characters, of which only the first few
are ASCII.  On it rest the two trimming functions, the splitting of a text at a kind of
character, and the splitting into words.  Texts are lists of characters here; `trim` is the
same operation on strings.
-/

namespace ShaderMerge.Text

/-- The characters with the White_Space property. -/
def isBlank (c : Char) : Bool :=
  let n := c.toNat
  (0x09 ≤ n && n ≤ 0x0D) || n == 0x20 || n == 0x85 || n == 0xA0 || n == 0x1680
    || (0x2000 ≤ n && n ≤ 0x200A) || n == 0x2028 || n == 0x2029 || n == 0x202F
    || n == 0x205F || n == 0x3000

/-- A text without the blanks at its start. -/
def skipBlanks (cs : List Char) : List Char :=
  cs.dropWhile isBlank

/-- A text without the characters at its end that satisfy `p`. -/
def dropEndWhile (p : Char → Bool) (cs : List Char) : List Char :=
  (cs.reverse.dropWhile p).reverse

/-- A text without the blanks at its end. -/
def skipBlanksEnd (cs : List Char) : List Char :=
  dropEndWhile isBlank cs

/-- A text without the blanks at its two ends. -/
def trimmed (cs : List Char) : List Char :=
  skipBlanksEnd (skipBlanks cs)

/-- A string without the blanks at its two ends. -/
def trim (s : String) : String :=
  String.ofList (trimmed s.toList)

/-- Cut a text at every character that satisfies `p`; the cut characters are left out, and a
text without any is its own only piece. -/
def splitWhere (p : Char → Bool) : List Char → List (List Char)
  | [] => [[]]
  | c :: rest =>
    if p c then [] :: splitWhere p rest
    else match splitWhere p rest with
      | [] => [[c]]
      | piece :: pieces => (c :: piece) :: pieces

/-- The maximal runs of characters that are not blank. -/
def words (cs : List Char) : List (List Char) :=
  (splitWhere isBlank cs).filter (!·.isEmpty)

/-- The words of a string. -/
def wordStrings (s : String) : List String :=
  (words s.toList).map String.ofList

/-! ## Small laws -/

theorem splitWhere_ne_nil (p : Char → Bool) (cs : List Char) : splitWhere p cs ≠ [] := by
  cases cs with
  | nil => simp [splitWhere]
  | cons c rest =>
    simp only [splitWhere]
    split
    · simp
    · split <;> simp

theorem length_skipBlanks_le (cs : List Char) : (skipBlanks cs).length ≤ cs.length :=
  (List.dropWhile_sublist isBlank).length_le

/-- What the skipping leaves does not start with a blank. -/
theorem isBlank_head_skipBlanks {cs rest : List Char} {c : Char}
    (h : skipBlanks cs = c :: rest) : isBlank c = false := by
  induction cs with
  | nil => simp [skipBlanks] at h
  | cons d ds ih =>
    simp only [skipBlanks, List.dropWhile_cons] at h
    split at h
    · exact ih h
    · simp_all

/-- Nothing but blanks is skipped: they and the rest are the whole text. -/
theorem takeWhile_append_skipBlanks (cs : List Char) :
    cs.takeWhile isBlank ++ skipBlanks cs = cs :=
  List.takeWhile_append_dropWhile

end ShaderMerge.Text
