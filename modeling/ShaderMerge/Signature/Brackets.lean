import ShaderMerge.Text.Blank

/-!
# Brackets

Counting parentheses, finding the one that closes, and cutting a text where no bracket is open.
Brackets are counted by their number alone: any closing one takes back any opening one, and a
text may close more than it opens.
-/

namespace ShaderMerge.Signature

/-- How many more parentheses a text opens than it closes. -/
def parenBalance (cs : List Char) : Int :=
  cs.foldl (fun n c => if c = '(' then n + 1 else if c = ')' then n - 1 else n) 0

/-- The text in front of the parenthesis that closes the one opened just before, and the text
behind it, when `depth` more are open. -/
def closing? (depth : Nat) : List Char → Option (List Char × List Char)
  | [] => none
  | c :: rest =>
    if c = ')' then
      match depth with
      | 0 => some ([], rest)
      | depth + 1 => (closing? depth rest).map fun (inner, after) => (c :: inner, after)
    else
      (closing? (if c = '(' then depth + 1 else depth) rest).map
        fun (inner, after) => (c :: inner, after)

/-- What a character adds to the number of open brackets: parentheses, square and angle
brackets count. -/
def bracketStep (c : Char) : Int :=
  if c = '(' || c = '[' || c = '<' then 1
  else if c = ')' || c = ']' || c = '>' then -1
  else 0

/-- Whether a character separates at a depth: it must be no bracket, and none may be open. -/
def separatesAt (separator c : Char) (depth : Int) : Bool :=
  c == separator && bracketStep c == 0 && depth == 0

/-- Cut a text at every separator outside of brackets, when `depth` of them are open. -/
def splitTopFrom (separator : Char) (depth : Int) : List Char → List (List Char)
  | [] => [[]]
  | c :: rest =>
    if separatesAt separator c depth then [] :: splitTopFrom separator depth rest
    else
      match splitTopFrom separator (depth + bracketStep c) rest with
      | [] => [[c]]
      | piece :: pieces => (c :: piece) :: pieces

/-- Cut a text at every separator outside of brackets. -/
def splitTop (separator : Char) (cs : List Char) : List (List Char) :=
  splitTopFrom separator 0 cs

/-- Cut a text around its first separator outside of brackets, when `depth` of them are open. -/
def cutTopFrom (separator : Char) (depth : Int) : List Char → Option (List Char × List Char)
  | [] => none
  | c :: rest =>
    if separatesAt separator c depth then some ([], rest)
    else (cutTopFrom separator (depth + bracketStep c) rest).map
      fun (before, after) => (c :: before, after)

/-- A text up to its first separator outside of brackets, and what stands behind it, if it has
one. -/
def cutTop (separator : Char) (cs : List Char) : List Char × Option (List Char) :=
  match cutTopFrom separator 0 cs with
  | some (before, after) => (before, some after)
  | none => (cs, none)

/-! ## Small laws -/

theorem append_of_closing? {depth : Nat} {cs inner after : List Char}
    (h : closing? depth cs = some (inner, after)) : inner ++ ')' :: after = cs := by
  induction cs generalizing depth inner after with
  | nil => simp [closing?] at h
  | cons c rest ih =>
    simp only [closing?] at h
    split at h
    · rename_i hc
      cases depth with
      | zero =>
        simp only [Option.some.injEq, Prod.mk.injEq] at h
        obtain ⟨rfl, rfl⟩ := h
        simp [hc]
      | succ depth =>
        obtain ⟨⟨i, a⟩, hia, heq⟩ := Option.map_eq_some_iff.1 h
        simp only [Prod.mk.injEq] at heq
        obtain ⟨rfl, rfl⟩ := heq
        simp [ih hia]
    · obtain ⟨⟨i, a⟩, hia, heq⟩ := Option.map_eq_some_iff.1 h
      simp only [Prod.mk.injEq] at heq
      obtain ⟨rfl, rfl⟩ := heq
      simp [ih hia]

theorem append_of_cutTopFrom {separator : Char} {depth : Int} {cs before after : List Char}
    (h : cutTopFrom separator depth cs = some (before, after)) :
    before ++ separator :: after = cs := by
  induction cs generalizing depth before after with
  | nil => simp [cutTopFrom] at h
  | cons c rest ih =>
    simp only [cutTopFrom] at h
    split at h
    · rename_i hc
      simp only [Option.some.injEq, Prod.mk.injEq] at h
      obtain ⟨rfl, rfl⟩ := h
      simp only [separatesAt, Bool.and_eq_true, beq_iff_eq] at hc
      simp [hc.1.1]
    · obtain ⟨⟨b, a⟩, hba, heq⟩ := Option.map_eq_some_iff.1 h
      simp only [Prod.mk.injEq] at heq
      obtain ⟨rfl, rfl⟩ := heq
      simp [ih hba]

end ShaderMerge.Signature
