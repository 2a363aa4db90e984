import ShaderMerge.Proofs.Signature.Extension
import ShaderMerge.Variant.Carrier
import ShaderMerge.Variant.SignatureEdit

/-!
# The text of a signature

The lines of a signature are read as one text, joined by single spaces.  Its header stands on the
first line (`header?`), and its parameters end where the cut of the lines is
(`Cut.ofSignature?_eq`).  So each edit of the lines is an edit of the text behind the header, or
of the return type, and the header that is read of the new lines is known (the `header?_` lemmas).
-/

namespace ShaderMerge.Variant

/-- The name of a carrier is a name that no other one is reserved for. -/
theorem Carrier.isName_name (c : Carrier) : Text.IsName c.name.toList := by
  rw [Carrier.name]
  cases c.role <;> decide

theorem Carrier.name_notMem (c : Carrier) :
    c.name ∉ Signature.nonTypeWords ++ Signature.flowWords := by
  rw [Carrier.name]
  cases c.role <;> decide

namespace SignatureEdit

open Signature (Header closing? parenBalance)
open Text (IsBlanks IsName)

variable {lines edited above below : List String} {first line : String} {header : Header} {cut : Cut}
  {depth : Nat}

/-! ## Lines as one text -/

/-- Lines joined by single spaces. -/
def joined (lines : List String) : List Char := List.intercalate [' '] (lines.map String.toList)

/-- The text of lines in front of another line. -/
def textAbove (above : List String) : List Char := above.flatMap fun line => line.toList ++ [' ']

/-- The text of lines behind another line. -/
def textBelow (below : List String) : List Char := below.flatMap fun line => ' ' :: line.toList

theorem joined_cons (line : String) (below : List String) :
    joined (line :: below) = line.toList ++ textBelow below := by
  induction below generalizing line with
  | nil => exact (List.intercalate_singleton ..).trans (List.append_nil _).symm
  | cons next below ih =>
    have hnext : joined (line :: next :: below) = line.toList ++ [' '] ++ joined (next :: below) :=
      List.intercalate_cons_cons ..
    rw [hnext, ih, textBelow, textBelow, List.flatMap_cons]
    simp

theorem joined_append_cons (above : List String) (line : String) (below : List String) :
    joined (above ++ line :: below) = textAbove above ++ (line.toList ++ textBelow below) := by
  induction above with
  | nil => exact joined_cons line below
  | cons next above ih =>
    have hcons : textBelow (above ++ line :: below) = ' ' :: joined (above ++ line :: below) := by
      cases above with
      | nil => rw [List.nil_append, joined_cons, textBelow, List.flatMap_cons]; rfl
      | cons other above =>
        rw [List.cons_append, joined_cons, textBelow, List.flatMap_cons]; rfl
    rw [List.cons_append, joined_cons, hcons, ih, textAbove, textAbove, List.flatMap_cons]
    simp

/-- A space closes no parenthesis. -/
theorem closing?_textBelow (depth : Nat) (below : List String) : closing? depth (textBelow below)
    = (closing? depth (joined below)).map fun (inner, after) => (' ' :: inner, after) := by
  cases below with
  | nil => rfl
  | cons next below =>
    rw [joined_cons]
    rfl

/-! ## The parenthesis that closes the parameters -/

namespace Cut

/-- The text in front of the parenthesis. -/
def front (c : Cut) : List Char := textAbove c.above ++ c.before

/-- The text behind the parenthesis. -/
def behind (c : Cut) : List Char := c.after ++ textBelow c.below

theorem joined_lines (c : Cut) : joined c.lines = c.front ++ ')' :: c.behind := by
  rw [lines, joined_append_cons, front, behind, String.toList_ofList]
  simp

/-- Lines without directives are cut where their text is. -/
theorem ofLines?_eq (hplain : ∀ line ∈ lines, Directive.isMarked line = false) :
    (ofLines? depth lines).map (fun c => (c.front, c.behind)) = closing? depth (joined lines) := by
  induction lines generalizing depth with
  | nil => rfl
  | cons line rest ih =>
    obtain ⟨hline, hrest⟩ := List.forall_mem_cons.1 hplain
    rw [ofLines?, if_neg (by rw [hline]; decide), joined_cons]
    cases hclosing : closing? depth line.toList with
    | some found =>
      obtain ⟨before, after⟩ := found
      rw [Signature.closing?_append hclosing]
      rfl
    | none =>
      rw [Signature.closing?_append_of_none hclosing, closing?_textBelow, ← ih hrest]
      simp only [Option.map_map]
      refine congrArg (Option.map · _) (funext fun c => ?_)
      simp [front, behind, addAbove, textAbove]

end Cut

/-! ## The header -/

/-- The header on the first line of a signature, with the text of the whole signature behind it. -/
def header? : List String → Option Header
  | [] => none
  | first :: rest =>
    (Header.ofText? first.toList).map fun header =>
      { header with rest := header.rest ++ textBelow rest }

theorem isRead_of_header? (h : header? lines = some header) :
    header.text = joined lines ∧ header.IsRead := by
  cases lines with
  | nil => cases h
  | cons first rest =>
    obtain ⟨own, hown, rfl⟩ := Option.map_eq_some_iff.1 h
    obtain ⟨htext, hread⟩ := Signature.Header.ofText?_eq_some_iff.1 hown
    refine ⟨?_, hread.withRest _⟩
    rw [joined_cons, ← htext, Header.text, Header.text, List.append_assoc]
    rfl

theorem header?_cons {own : Header} (hread : own.IsRead) (rest : List Char) (below : List String) :
    header? (String.ofList (own.front ++ rest) :: below)
      = some { own with rest := rest ++ textBelow below } := by
  rw [header?, String.toList_ofList, hread.ofText?_front]
  rfl

/-- Text in front of the parenthesis of a cut, and other text behind it, leave the header as it
is. -/
theorem header?_of_cut (h : Cut.ofSignature? lines = some cut) :
    ∃ header, header? lines = some header ∧
    ∀ added after below, ∃ rest,
      header? (Cut.lines ⟨cut.above, cut.before ++ added, after, below⟩) = some { header with rest } := by
  cases lines with
  | nil => cases h
  | cons first rest =>
    obtain ⟨own, hown, hcut⟩ := Option.bind_eq_some_iff.1 h
    refine ⟨_, by rw [header?, hown]; rfl, fun added after below => ?_⟩
    obtain ⟨htext, hread⟩ := Signature.Header.ofText?_eq_some_iff.1 hown
    split at hcut
    · rename_i before _ _
      cases hcut
      refine ⟨before ++ added ++ ')' :: after ++ textBelow below, ?_⟩
      rw [Cut.lines, List.append_assoc, List.append_assoc]
      exact header?_cons hread _ below
    · obtain ⟨inner, -, rfl⟩ := Option.map_eq_some_iff.1 hcut
      exact ⟨own.rest ++ textBelow
        (inner.above ++ String.ofList (inner.before ++ added ++ ')' :: after) :: below),
        by rw [Cut.lines, Cut.addAbove, List.cons_append, header?, hown]; rfl⟩

/-- The cut of a signature is where the parameters of its text end. -/
theorem Cut.ofSignature?_eq (h : header? lines = some header)
    (hplain : ∀ line ∈ lines.tail, Directive.isMarked line = false) :
    (ofSignature? lines).map (fun c => (c.front, c.behind))
      = (closing? 0 header.rest).map fun (inner, after) => (header.front ++ inner, after) := by
  cases lines with
  | nil => cases h
  | cons first rest =>
    obtain ⟨own, hown, rfl⟩ := Option.map_eq_some_iff.1 h
    have htext := (Signature.Header.ofText?_eq_some_iff.1 hown).1
    rw [ofSignature?, hown, Option.bind_some]
    dsimp only
    cases hclosing : closing? 0 own.rest with
    | some found =>
      obtain ⟨before, after⟩ := found
      rw [Signature.closing?_append hclosing]
      rfl
    | none =>
      have hlines : (ofLines? (parenBalance own.rest).toNat rest).map (fun c => (c.front, c.behind))
          = closing? (parenBalance own.rest).toNat (joined rest) := ofLines?_eq hplain
      rw [Signature.closing?_append_of_none hclosing, Int.natCast_zero, Int.zero_add,
        closing?_textBelow, ← hlines]
      simp only [Option.map_map]
      refine congrArg (Option.map · _) (funext fun c => ?_)
      simp [front, behind, addAbove, textAbove, ← htext, Header.text, Header.front]

/-- Where the parameters of a text end, its lines are cut, and what stands behind the cut may be
replaced. -/
theorem exists_cut {inner after : List Char} (h : header? lines = some header)
    (hplain : ∀ line ∈ lines.tail, Directive.isMarked line = false)
    (hclosing : closing? 0 header.rest = some (inner, after)) :
    ∃ cut, Cut.ofSignature? lines = some cut ∧
      cut.behind = after ∧ ∀ added after below,
        header? (Cut.lines ⟨cut.above, cut.before ++ added, after, below⟩)
          = some { header with rest := inner ++ (added ++ ')' :: (after ++ textBelow below)) } := by
  have hcut := Cut.ofSignature?_eq h hplain
  rw [hclosing] at hcut
  obtain ⟨cut, hcut, heq⟩ := Option.map_eq_some_iff.1 hcut
  obtain ⟨hfront, hbehind⟩ := Prod.mk.inj heq
  obtain ⟨own, hown, hedited⟩ := header?_of_cut hcut
  cases h.symm.trans hown
  refine ⟨cut, hcut, hbehind, fun added after' below' => ?_⟩
  obtain ⟨rest, hrest⟩ := hedited added after' below'
  have htext := (isRead_of_header? hrest).1
  have hfront' : textAbove cut.above ++ cut.before = header.front ++ inner := hfront
  rw [Cut.joined_lines, Cut.front, Cut.behind, ← List.append_assoc, hfront', Header.text,
    List.append_assoc, List.append_assoc] at htext
  rw [hrest]
  exact congrArg (fun rest => some { header with rest }) (List.append_cancel_left htext)

/-! ## Parameters at either end -/

variable {parameter : String} {hasOthers : Bool}

theorem header?_of_prependParameter? (h : prependParameter? parameter hasOthers lines = some edited) :
    ∃ header, header? lines = some header ∧ header? edited = some { header with
      rest := parameter.toList ++ ((if hasOthers then ", " else "").toList ++ header.rest) } := by
  cases lines with
  | nil => cases h
  | cons first rest =>
    obtain ⟨own, hown, rfl⟩ := Option.map_eq_some_iff.1 h
    refine ⟨_, by rw [header?, hown]; rfl, ?_⟩
    have hread := (Signature.Header.ofText?_eq_some_iff.1 hown).2
    dsimp only
    rw [List.append_assoc, List.append_assoc, header?_cons hread, List.append_assoc, List.append_assoc]

theorem exists_header?_appendParameter (parameter : String) (hasOthers : Bool)
    (h : header? lines = some header) :
    ∃ rest, header? (appendParameter parameter hasOthers lines) = some { header with rest } := by
  rw [appendParameter]
  split
  · exact ⟨header.rest, h⟩
  · rename_i cut hcut
    obtain ⟨own, hown, hedited⟩ := header?_of_cut hcut
    cases h.symm.trans hown
    dsimp only
    rw [List.append_assoc]
    exact hedited _ _ _

theorem header?_appendParameter (parameter : String) (hasOthers : Bool) {inner after : List Char}
    (h : header? lines = some header)
    (hplain : ∀ line ∈ lines.tail, Directive.isMarked line = false)
    (hclosing : closing? 0 header.rest = some (inner, after)) :
    header? (appendParameter parameter hasOthers lines) = some { header with
      rest := inner ++ ((if hasOthers then ", " else "").toList ++ parameter.toList)
        ++ ')' :: after } := by
  obtain ⟨cut, hcut, rfl, hedited⟩ := exists_cut h hplain hclosing
  rw [appendParameter, hcut]
  dsimp only
  rw [List.append_assoc, hedited, ← List.append_assoc]
  rfl

/-! ## What is returned -/

/-- What is left behind the parenthesis when the semantic is taken away. -/
def withoutSemantic (cut : Cut) : List Char :=
  if startsWithColon cut.after then textBelow cut.below
  else
    match cut.below with
    | [] => cut.after
    | next :: below =>
      if startsWithColon next.toList then cut.after ++ textBelow below
      else cut.after ++ textBelow (next :: below)

theorem exists_header?_removeReturnSemantic (h : header? lines = some header) :
    ∃ rest, header? (removeReturnSemantic lines) = some { header with rest } := by
  rw [removeReturnSemantic]
  split
  · exact ⟨header.rest, h⟩
  · rename_i cut hcut
    obtain ⟨own, hown, hedited⟩ := header?_of_cut hcut
    cases h.symm.trans hown
    have hlines := hedited []
    rw [List.append_nil] at hlines
    split
    · exact hlines [] cut.below
    · split
      · exact ⟨header.rest, h⟩
      · rename_i next below hbelow
        split
        · exact hlines cut.after below
        · exact ⟨header.rest, h⟩

theorem header?_removeReturnSemantic {inner after : List Char} (h : header? lines = some header)
    (hplain : ∀ line ∈ lines.tail, Directive.isMarked line = false)
    (hclosing : closing? 0 header.rest = some (inner, after))
    (hcut : Cut.ofSignature? lines = some cut) :
    header? (removeReturnSemantic lines)
      = some { header with rest := inner ++ ')' :: withoutSemantic cut } := by
  obtain ⟨cut', hcut', rfl, hedited⟩ := exists_cut h hplain hclosing
  cases hcut.symm.trans hcut'
  have hlines := hedited []
  rw [List.append_nil] at hlines
  have hsame : header? lines = some { header with rest := inner ++ ')' :: cut.behind } := by
    rw [h, Signature.append_of_closing? hclosing]
  rw [removeReturnSemantic, hcut]
  dsimp only
  by_cases hcolon : startsWithColon cut.after = true
  · rw [if_pos hcolon, withoutSemantic, if_pos hcolon]
    exact hlines [] cut.below
  · rw [if_neg hcolon, withoutSemantic, if_neg hcolon]
    cases hbelow : cut.below with
    | nil =>
      rw [hsame, Cut.behind, hbelow, textBelow, List.flatMap_nil, List.append_nil]
    | cons next below =>
      by_cases hnext : startsWithColon next.toList = true
      · simp only [if_pos hnext]
        exact hlines cut.after below
      · simp only [if_neg hnext]
        rw [hsame, Cut.behind, hbelow]

theorem header?_replaceReturnType {type : String} (h : header? lines = some header)
    (htype : Text.IsName type.toList) (hfree : type ∉ Signature.nonTypeWords ++ Signature.flowWords) :
    header? (replaceReturnType type lines) = some { header with returnType := type.toList } := by
  cases lines with
  | nil => cases h
  | cons first rest =>
    obtain ⟨own, hown, rfl⟩ := Option.map_eq_some_iff.1 h
    have hread := (Signature.Header.ofText?_eq_some_iff.1 hown).2
    have hretyped := hread.retyped htype (by rwa [String.ofList_toList])
    rw [replaceReturnType, hown]
    dsimp only
    rw [Header.text, header?_cons hretyped]

end SignatureEdit

end ShaderMerge.Variant
