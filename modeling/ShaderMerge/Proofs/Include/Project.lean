import ShaderMerge.Include.Project

/-!
# Texts that are given by their lines

`Project.joined` ends each of some lines with a line feed.  Read back, such a text has the same
lines (`lines_joined`).
-/

namespace ShaderMerge.Project

/-- The text of some lines, each with a line feed behind it. -/
def joined (lines : List String) : String :=
  String.ofList (lines.flatMap fun line => line.toList ++ ['\n'])

/-- A project of files that are given by their lines. -/
def ofFiles (files : List (String × List String)) : Project :=
  Table.ofList (files.map fun file => (file.1, joined file.2))

/-- Whether a text is one line, with no part of a line end in it. -/
def isSingle (line : String) : Bool :=
  !line.toList.contains '\n' && line.toList.getLast? != some '\r'

theorem splitWhere_line {cs : List Char} (h : '\n' ∉ cs) (rest : List Char) :
    Text.splitWhere (· == '\n') (cs ++ '\n' :: rest)
      = cs :: Text.splitWhere (· == '\n') rest := by
  induction cs with
  | nil => simp [Text.splitWhere]
  | cons c cs ih =>
    rw [List.mem_cons, not_or] at h
    have hne : (c == '\n') = false := by simpa using fun heq => h.1 heq.symm
    rw [List.cons_append, Text.splitWhere, hne, if_neg Bool.false_ne_true, ih h.2]

theorem withoutReturn_of_getLast? {cs : List Char} (h : cs.getLast? ≠ some '\r') :
    withoutReturn cs = cs := by
  rw [withoutReturn]
  split
  · rename_i front heq
    rw [← List.head?_reverse, heq] at h
    exact absurd rfl h
  · rfl

/-- The lines of a text made of lines are those lines. -/
theorem lines_joined {lines : List String} (h : lines.all isSingle = true) :
    Project.lines (joined lines) = lines := by
  have hpieces : linesOfPieces (Text.splitWhere (· == '\n')
      (lines.flatMap fun line => line.toList ++ ['\n'])) = lines.map String.toList := by
    induction lines with
    | nil => rfl
    | cons line rest ih =>
      rw [List.all_cons, Bool.and_eq_true, isSingle, Bool.and_eq_true, Bool.not_eq_true',
        bne_iff_ne] at h
      obtain ⟨⟨hfeed, hreturn⟩, hrest⟩ := h
      have hfeed : '\n' ∉ line.toList := by simpa using hfeed
      rw [List.flatMap_cons, List.append_assoc, List.singleton_append, splitWhere_line hfeed]
      -- More pieces follow the line, so that it is not the last one.
      cases hsplit : Text.splitWhere (· == '\n')
          (rest.flatMap fun line => line.toList ++ ['\n']) with
      | nil => exact absurd hsplit (Text.splitWhere_ne_nil _ _)
      | cons piece pieces =>
        rw [linesOfPieces, withoutReturn_of_getLast? hreturn, ← hsplit, ih hrest, List.map_cons]
        exact List.cons_ne_nil piece pieces
  rw [Project.lines, joined, String.toList_ofList, hpieces, List.map_map]
  simp [Function.comp_def]

theorem get?_ofFiles (files : List (String × List String)) (path : String) :
    (ofFiles files).get? path = ((Table.ofList files).get? path).map joined := by
  have hinsert : ∀ (t : Table String (List String)) (u : Table String String),
      (∀ key, u.get? key = (t.get? key).map joined) →
      (u.insertAll (files.map fun file => (file.1, joined file.2))).get? path
        = ((t.insertAll files).get? path).map joined := by
    induction files with
    | nil => exact fun t u h => h path
    | cons file rest ih =>
      intro t u h
      refine ih (t.insert file.1 file.2) (u.insert file.1 (joined file.2)) ?_
      intro key
      rw [Table.get?_insert, Table.get?_insert]
      split
      · rfl
      · exact h key
  exact hinsert .empty .empty fun key => rfl

/-- A file that is given by its lines has these lines. -/
theorem readLines?_ofFiles {files : List (String × List String)} {path : String}
    {lines : List String} (hget : (Table.ofList files).get? path = some lines)
    (h : lines.all isSingle = true) : (ofFiles files).readLines? path = some lines := by
  rw [readLines?, get?_ofFiles, hget]
  exact congrArg some (lines_joined h)

end ShaderMerge.Project
