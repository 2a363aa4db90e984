import Mathlib.Data.List.SplitBy
import ShaderMerge.LogicalLine
import ShaderMerge.Proofs.Text.Words

/-!
# Continued lines

`groups` cuts the raw lines of a file behind every line that does not go on, so that each group is
joined to one line.  `ofRaw_eq` says that a file is read by its joined groups: where the last line of
all goes on, there may be nothing to join, and an empty line more makes no difference.
-/

namespace ShaderMerge.LogicalLine

open Text

/-- Whether a raw line goes on to the next one. -/
def goesOn (line : List Char) : Bool := (continued? (withoutLineEnd line)).isSome

/-- What a raw line adds to the joined line. -/
def share (line : List Char) : List Char :=
  (continued? (withoutLineEnd line)).getD (withoutLineEnd line)

/-- The raw lines of each joined line. -/
def groups (raw : List (List Char)) : List (List (List Char)) :=
  raw.splitBy fun line _ => goesOn line

/-- The line to which a group is joined. -/
def joined (group : List (List Char)) : List Char := group.flatMap share

variable {line front pending : List Char} {raw before after rest : List (List Char)}

/-! ## Lines that go on -/

theorem skipBlanksEnd_withoutLineEnd (line : List Char) :
    skipBlanksEnd (withoutLineEnd line) = skipBlanksEnd line := by
  have hline : withoutLineEnd line
      ++ (line.reverse.takeWhile fun c => c == '\r' || c == '\n').reverse = line := by
    rw [withoutLineEnd, dropEndWhile, ← List.reverse_append, List.takeWhile_append_dropWhile,
      List.reverse_reverse]
  conv_rhs => rw [← hline]
  refine (skipBlanksEnd_append_blanks (fun c hc => ?_) _).symm
  have hend := List.mem_takeWhile_imp (List.mem_reverse.1 hc)
  obtain hc | hc := Bool.or_eq_true_iff.1 hend
  · rw [eq_of_beq hc]
    decide
  · rw [eq_of_beq hc]
    decide

/-- A line goes on if nothing but blanks stands behind a backslash. -/
theorem continued?_withoutLineEnd_eq_some_iff : continued? (withoutLineEnd line) = some front ↔
    ∃ gap, IsBlanks gap ∧ line = front ++ '\\' :: gap := by
  rw [continued?, skipBlanksEnd_withoutLineEnd, skipBlanksEnd, dropEndWhile, List.reverse_reverse]
  constructor
  · intro h
    split at h
    · rename_i tail heq
      cases h
      refine ⟨(line.reverse.takeWhile isBlank).reverse,
        fun c hc => List.mem_takeWhile_imp (List.mem_reverse.1 hc), ?_⟩
      have hsplit := List.takeWhile_append_dropWhile (p := isBlank) (l := line.reverse)
      rw [heq, ← List.reverse_inj, List.reverse_reverse] at hsplit
      conv_lhs => rw [← hsplit]
      simp
    · cases h
  · rintro ⟨gap, hgap, rfl⟩
    have hdrop : (front ++ '\\' :: gap).reverse.dropWhile isBlank = '\\' :: front.reverse := by
      rw [List.reverse_append, List.reverse_cons, List.append_assoc,
        List.dropWhile_append_of_pos fun c hc => hgap c (List.mem_reverse.1 hc)]
      rfl
    rw [hdrop]
    exact congrArg some (List.reverse_reverse front)

theorem goesOn_iff : goesOn line = true ↔ ∃ front gap, IsBlanks gap ∧ line = front ++ '\\' :: gap := by
  simp only [goesOn, Option.isSome_iff_exists, continued?_withoutLineEnd_eq_some_iff]

/-! ## Groups -/

/-- Some line is the first one that does not go on, if not all do. -/
theorem forall_goesOn_or (raw : List (List Char)) : (∀ line ∈ raw, goesOn line = true) ∨
    ∃ front line rest, raw = front ++ line :: rest ∧ (∀ line ∈ front, goesOn line = true)
      ∧ goesOn line = false := by
  induction raw with
  | nil => exact .inl nofun
  | cons line raw ih =>
    cases hline : goesOn line with
    | false => exact .inr ⟨[], line, raw, rfl, nofun, hline⟩
    | true =>
      obtain hall | ⟨front, last, rest, rfl, hfront, hlast⟩ := ih
      · exact .inl (List.forall_mem_cons.2 ⟨hline, hall⟩)
      · exact .inr ⟨line :: front, last, rest, rfl, List.forall_mem_cons.2 ⟨hline, hfront⟩, hlast⟩

theorem isChain_goesOn {front : List (List Char)} (hfront : ∀ line ∈ front, goesOn line = true)
    (last : List Char) : (front ++ [last]).IsChain fun line _ => goesOn line = true := by
  induction front with
  | nil => exact List.isChain_singleton last
  | cons line front ih =>
    obtain ⟨hline, hfront⟩ := List.forall_mem_cons.1 hfront
    exact List.isChain_cons.2 ⟨fun _ _ => hline, ih hfront⟩

/-- A group ends with the first line that does not go on. -/
theorem groups_append_cons {front : List (List Char)} (hfront : ∀ line ∈ front, goesOn line = true)
    (hline : goesOn line = false) (rest : List (List Char)) :
    groups (front ++ line :: rest) = (front ++ [line]) :: groups rest := by
  have hends : ∀ last ∈ (front ++ [line]).getLast?, ∀ next ∈ rest.head?, goesOn last = false := by
    intro last hlast _ _
    rw [List.getLast?_append, List.getLast?_singleton] at hlast
    cases hlast
    exact hline
  rw [groups, List.append_cons, List.splitBy_append hends,
    List.splitBy_of_isChain (by simp) (isChain_goesOn hfront line)]
  rfl

theorem groups_of_forall (hne : raw ≠ []) (hraw : ∀ line ∈ raw, goesOn line = true) :
    groups raw = [raw] := by
  refine List.splitBy_of_isChain hne ?_
  have hchain := isChain_goesOn (fun line hline => hraw line (List.dropLast_subset raw hline))
    (raw.getLast hne)
  rwa [List.dropLast_append_getLast] at hchain

/-- Each group in front of another one has one line that does not go on. -/
theorem length_filter_flatten {group : List (List Char)} {before after : List (List (List Char))}
    (h : groups raw = before ++ group :: after) :
    (before.flatten.filter fun line => !goesOn line).length = before.length := by
  induction before generalizing raw with
  | nil => rfl
  | cons first before ih =>
    rw [List.cons_append] at h
    obtain hall | ⟨front, line, rest, rfl, hfront, hline⟩ := forall_goesOn_or raw
    · have hne : raw ≠ [] := by
        rintro rfl
        cases h
      rw [groups_of_forall hne hall] at h
      exact absurd (List.cons.inj h).2 (by simp)
    · rw [groups_append_cons hfront hline] at h
      obtain ⟨rfl, hrest⟩ := List.cons.inj h
      have hnone : front.filter (fun line => !goesOn line) = [] := by
        rw [List.filter_eq_nil_iff]
        intro line hmem
        simp [hfront line hmem]
      simp only [List.flatten_cons, List.filter_append, hnone, List.length_append, List.length_cons,
        ih hrest]
      simp [hline, Nat.add_comm]

/-- The lines of a group in front of another of its lines go on. -/
theorem goesOn_of_mem_groups {front back : List (List Char)}
    (h : front ++ line :: back ∈ groups raw) : ∀ line ∈ front, goesOn line = true := by
  have hchain := List.isChain_of_mem_splitBy h
  clear h
  induction front with
  | nil => exact nofun
  | cons first front ih =>
    rw [List.cons_append, List.isChain_cons] at hchain
    refine List.forall_mem_cons.2 ⟨?_, ih hchain.2⟩
    cases front with
    | nil => exact hchain.1 line rfl
    | cons second front => exact hchain.1 second rfl

/-! ## Joining -/

theorem joinContinuedFrom_cons_of_goesOn (h : goesOn line = true) (rest : List (List Char)) :
    joinContinuedFrom pending (line :: rest) = joinContinuedFrom (pending ++ share line) rest := by
  obtain ⟨front, hfront⟩ := Option.isSome_iff_exists.1 h
  rw [joinContinuedFrom, share, hfront]
  rfl

theorem joinContinuedFrom_cons_of_not_goesOn (h : goesOn line = false) (rest : List (List Char)) :
    joinContinuedFrom pending (line :: rest)
      = (pending ++ share line) :: joinContinuedFrom [] rest := by
  rw [goesOn, Option.isSome_eq_false_iff, Option.isNone_iff_eq_none] at h
  rw [joinContinuedFrom, share, h]
  rfl

theorem joinContinuedFrom_append {front : List (List Char)}
    (hfront : ∀ line ∈ front, goesOn line = true) (rest : List (List Char)) :
    joinContinuedFrom pending (front ++ rest) = joinContinuedFrom (pending ++ joined front) rest := by
  induction front generalizing pending with
  | nil => simp [joined]
  | cons line front ih =>
    obtain ⟨hline, hfront⟩ := List.forall_mem_cons.1 hfront
    rw [List.cons_append, joinContinuedFrom_cons_of_goesOn hline, ih hfront, joined, joined,
      List.flatMap_cons, List.append_assoc]

/-- The groups are joined to the lines that are read, or to an empty line more. -/
theorem map_joined_groups (raw : List (List Char)) :
    (groups raw).map joined = joinContinued raw ∨
      (groups raw).map joined = joinContinued raw ++ [[]] := by
  induction hlength : raw.length using Nat.strongRecOn generalizing raw with
  | _ n ih =>
    subst hlength
    obtain hall | ⟨front, line, rest, rfl, hfront, hline⟩ := forall_goesOn_or raw
    · have hjoin : joinContinued raw = if (joined raw).isEmpty then [] else [joined raw] := by
        have happend : joinContinuedFrom [] (raw ++ []) = joinContinuedFrom ([] ++ joined raw) [] :=
          joinContinuedFrom_append hall []
        rw [List.append_nil, List.nil_append] at happend
        rw [joinContinued, happend, joinContinuedFrom]
      cases raw with
      | nil => exact .inl rfl
      | cons line raw =>
        rw [groups_of_forall (List.cons_ne_nil line raw) hall, hjoin]
        cases hempty : joined (line :: raw) with
        | nil => exact .inr (by simp [hempty])
        | cons c cs => exact .inl (by simp [hempty])
    · have hjoin : joinContinued (front ++ line :: rest)
          = joined (front ++ [line]) :: joinContinued rest := by
        rw [joinContinued, joinContinuedFrom_append hfront, joinContinuedFrom_cons_of_not_goesOn hline]
        simp [joined, joinContinued]
      have hlt : rest.length < (front ++ line :: rest).length := by
        rw [List.length_append, List.length_cons]
        omega
      rw [groups_append_cons hfront hline, hjoin, List.map_cons, List.cons_append]
      exact (ih rest.length hlt rest rfl).imp (congrArg _) (congrArg _)

/-! ## Files -/

theorem line?_nil (p : Progress) : p.line? [] = some p := by
  obtain ⟨inComment, done, names⟩ := p
  cases inComment <;> rfl

theorem normalizeFrom_append_nil (file : String) (p : Progress) (number : Nat)
    (lines : List (List Char)) :
    normalizeFrom file p number (lines ++ [[]]) = normalizeFrom file p number lines := by
  induction lines generalizing p number with
  | nil => simp only [List.nil_append, normalizeFrom, line?_nil]
  | cons line lines ih =>
    rw [List.cons_append, normalizeFrom, normalizeFrom]
    split
    · rfl
    · exact ih _ _

/-- **A file is read by its joined groups.** -/
theorem ofRaw_eq (file : String) (raw : List String) : ofRaw file raw
    = normalizeFrom file ⟨false, [], []⟩ 1 ((groups (raw.map String.toList)).map joined) := by
  obtain h | h := map_joined_groups (raw.map String.toList)
  · rw [h, ofRaw]
  · rw [h, normalizeFrom_append_nil, ofRaw]

end ShaderMerge.LogicalLine
